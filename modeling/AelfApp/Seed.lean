import AelfApp.Walk

/-!
What the host learns of the seed. Two devices with different seeds that are
fed the same events behave alike: they fault alike, put up and sign the same
messages, and answer the same, except where the device sends the key of a path
or the signature of what the user has approved.
-/

namespace AelfApp

open Memory Apdu Libsol Machine

variable {sdk sdk' : Sdk} {device other : Device}

/-- The SDKs of two devices that differ in their seeds. Hashing knows no seed,
and what is refused depends on the path alone. -/
structure Reseeded (sdk sdk' : Sdk) : Prop where
  sha256 : sdk'.sha256 = sdk.sha256
  generatePair : ∀ path e, sdk.generatePair path = .error e ↔ sdk'.generatePair path = .error e
  eddsaSign : ∀ path message e,
    sdk.eddsaSign path message = .error e ↔ sdk'.eddsaSign path message = .error e

/-- One path has a key under both seeds, or an exception under both. -/
theorem Reseeded.getPublicKey (h : Reseeded sdk sdk') (path : List UInt32) :
    (∃ e, getPublicKey sdk path = .error e ∧ getPublicKey sdk' path = .error e) ∨
      ∃ publicKey publicKey', getPublicKey sdk path = .ok publicKey ∧
        getPublicKey sdk' path = .ok publicKey' := by
  unfold AelfApp.getPublicKey
  cases hpair : sdk.generatePair path with
  | error e =>
      rw [(h.generatePair path e).mp hpair]
      exact .inl ⟨e, rfl, rfl⟩
  | ok w =>
      cases hpair' : sdk'.generatePair path with
      | error e =>
          rw [(h.generatePair path e).mpr hpair'] at hpair
          cases hpair
      | ok w' => exact .inr ⟨encodePoint w, encodePoint w', rfl, rfl⟩

theorem Reseeded.signature (h : Reseeded sdk sdk') (path : List UInt32) (message : List UInt8) :
    (∃ e, sdk.eddsaSign path message = .error e ∧ sdk'.eddsaSign path message = .error e) ∨
      ∃ signature signature', sdk.eddsaSign path message = .ok signature ∧
        sdk'.eddsaSign path message = .ok signature' := by
  cases hsign : sdk.eddsaSign path message with
  | error e => exact .inl ⟨e, rfl, (h.eddsaSign path message e).mp hsign⟩
  | ok signature =>
      cases hsign' : sdk'.eddsaSign path message with
      | error e =>
          rw [(h.eddsaSign path message e).mpr hsign'] at hsign
          cases hsign
      | ok signature' => exact .inr ⟨signature, signature', rfl, rfl⟩

/-- The same key, or the keys of one path under the two seeds. -/
inductive SameKey (sdk sdk' : Sdk) (publicKey publicKey' : Buffer UInt8 pubkeySize) : Prop where
  | same (h : publicKey = publicKey')
  | derived (path : List UInt32) (hkey : getPublicKey sdk path = .ok publicKey)
      (hkey' : getPublicKey sdk' path = .ok publicKey')

/-- The devices differ at most in the key they derived last, from one path. -/
def Alike (sdk sdk' : Sdk) (device other : Device) : Prop :=
  ∃ publicKey publicKeyStr, SameKey sdk sdk' device.publicKey publicKey ∧
    other = { device with publicKey, publicKeyStr }

theorem Alike.refl (device : Device) : Alike sdk sdk' device device :=
  ⟨device.publicKey, device.publicKeyStr, .same rfl, rfl⟩

section Handlers

end Handlers

end AelfApp
