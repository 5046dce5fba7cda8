import AelfApp.Menu.Buttons
import AelfApp.Watched

/-!
The settings in flash are the user's. Each of them is the one that the device
booted with, or was stored by the user last, at its entry of its list; so a
message that the device cannot read is put up only where the user allows it.
-/

namespace AelfApp

open Memory Apdu Libsol Machine Wire

variable {sdk : Sdk} {target : Target} {handset : Handset} {event : HandsetEvent}

section Storing

/-- Both buttons at the entry of the value in the list of the setting, while no
flow is on the screen. -/
def Chooses (setting : Setting) (event : HandsetEvent) (handset : Handset) (value : UInt8) : Prop :=
  event = .both ∧ handset.device.flow = .idle ∧
    handset.menu = .dataSubmenu setting value.toNat

/-- What both buttons store stands at the entry that they are pressed at. -/
theorem Menu.both_read (menu : Menu) (storage : InternalStorage) (setting : Setting) :
    (menu.both storage).2.read setting = storage.read setting ∨
      menu = .dataSubmenu setting ((menu.both storage).2.read setting).toNat := by
  cases menu with
  | idleFlow step =>
      refine .inl ?_
      simp only [Menu.both]
      split
      · rfl
      · split <;> rfl
  | settingsSubmenu idx => exact .inl rfl
  | dataSubmenu other idx =>
      simp only [Menu.both, other.selector_eq]
      by_cases hidx : idx < 2
      swap
      · rw [if_neg hidx]
        exact .inl rfl
      rw [if_pos hidx]
      by_cases hother : setting = other
      · subst hother
        have hbyte : (UInt8.ofNat idx).toNat = idx := by
          simp only [UInt8.toNat_ofNat']
          omega
        rw [storage.read_write, hbyte]
        exact .inr rfl
      · exact .inl (storage.read_write_of_ne _ hother)
  | exited => exact .inl rfl

theorem Handset.round_storage (sdk : Sdk) (event : Event) (handset : Handset) :
    Ensures (handset.round sdk event) fun result => result.2.storage = handset.storage := by
  intro result hresult
  obtain ⟨⟨outputs, device⟩, -, hresult⟩ := bind_eq_ok.mp hresult
  cases hresult
  rfl

/-- An event keeps a setting, or it is the user's choice of it. -/
theorem Handset.Sane.chooses (h : handset.Sane) (sdk : Sdk) (target : Target)
    (event : HandsetEvent) (setting : Setting) :
    Ensures (handsetStep sdk target event handset) fun result =>
      result.2.storage.read setting = handset.storage.read setting ∨
        Chooses setting event handset (result.2.storage.read setting) := by
  have hround : ∀ event' : Event, Ensures (handset.round sdk event') fun result =>
      result.2.storage.read setting = handset.storage.read setting ∨
        Chooses setting event handset (result.2.storage.read setting) := by
    intro event' result hresult
    rw [handset.round_storage sdk event' result hresult]
    exact .inl rfl
  unfold handsetStep
  split
  · exact ensures_ok (.inl rfl)
  cases event with
  | apdu bytes => exact hround (.apdu bytes)
  | left =>
      simp only
      split
      · exact ensures_ok (.inl rfl)
      · exact hround .left
  | right =>
      simp only
      split
      · exact ensures_ok (.inl rfl)
      · exact hround .right
  | pageTurn =>
      simp only
      split
      · exact ensures_ok (.inl rfl)
      · exact hround .pageTurn
  | both =>
      simp only
      split
      · rename_i hidle
        rcases handset.menu.both_read handset.storage setting with hkept | hchosen
        · exact ensures_ok (.inl hkept)
        · exact ensures_ok (.inr ⟨rfl, hidle, hchosen⟩)
      · exact hround .both
  | ioReset =>
      intro result hresult
      obtain ⟨⟨outputs, device⟩, -, hresult⟩ := bind_eq_ok.mp hresult
      cases hresult
      simp only [nvAppStateInit_of_initialized target h.storage.initialized, true_or]

variable (sdk target) in
/-- The setting has had this value since the device booted, or the user was the
last to choose it, and chose this. -/
def Chosen (setting : Setting) (events : List HandsetEvent) (booted : Handset) (value : UInt8) :
    Prop :=
  (booted.storage.read setting = value ∧
      Kept (handsetStep sdk target) (fun handset => handset.storage.read setting) events booted) ∨
    WroteLast (handsetStep sdk target) (fun handset => handset.storage.read setting)
      (Chooses setting) events booted value

theorem Handset.Sane.chosen (h : handset.Sane) (sdk : Sdk) (target : Target)
    (events : List HandsetEvent) (setting : Setting) :
    Ensures (run (handsetStep sdk target) events handset) fun result =>
      Chosen sdk target setting events handset (result.2.storage.read setting) := by
  have hstep : ∀ event (handset : Handset), handset.Sane →
      Ensures (handsetStep sdk target event handset) fun result => result.2.Sane ∧
        (result.2.storage.read setting = handset.storage.read setting ∨
          Chooses setting event handset (result.2.storage.read setting)) :=
    fun event handset hsane result hresult => ⟨hsane.step sdk target event result hresult,
      hsane.chooses sdk target event setting result hresult⟩
  intro result hresult
  rcases run_last_write (fun handset => handset.storage.read setting) (Chooses setting)
    Handset.Sane hstep events handset h result hresult with hkept | hwrote
  · exact .inl ⟨(hkept.final result hresult).symm, hkept⟩
  · exact .inr hwrote

/-- Whatever has happened, each setting in flash is the one that the device
booted with, or was last stored by the user, at its entry of its list. -/
theorem setting_was_chosen (sdk : Sdk) (target : Target) (storage : InternalStorage)
    (h : storage.initialized = 0x01 → storage.Valid) (events : List HandsetEvent)
    (setting : Setting) :
    Ensures (run (handsetStep sdk target) events (Handset.boot target storage)) fun result =>
      Chosen sdk target setting events (Handset.boot target storage)
        (result.2.storage.read setting) :=
  (sane_boot target h).chosen sdk target events setting

/-- The setting of a new device after the user has been at that entry. -/
theorem setting_was_chosen_fresh :
    Ensures (run (handsetStep constantSdk .nanos) allowingBlindSign
      (Handset.boot .nanos ⟨0, 0, 0, 0⟩)) fun result =>
        Chosen constantSdk .nanos .allowBlindSign allowingBlindSign
          (Handset.boot .nanos ⟨0, 0, 0, 0⟩) (result.2.storage.read .allowBlindSign) :=
  setting_was_chosen constantSdk .nanos ⟨0, 0, 0, 0⟩ (fun h => absurd h (by decide))
    allowingBlindSign .allowBlindSign

end Storing

section Blind

/-- A round of the handset that puts up a review is one of its device. -/
theorem Handset.Sane.putsUp (h : handset.Sane) (sdk : Sdk) (target : Target)
    (event : HandsetEvent) :
    Ensures (handsetStep sdk target event handset) fun result => Reviews result.1 →
      PutsUpReview sdk handset.view result.1 result.2.view := by
  intro result hresult hreviews
  obtain ⟨content, hholds⟩ := h.holds
  cases hevent : handset.deviceEvent event with
  | none =>
      obtain ⟨handset', hsilent, -, -⟩ := handsetStep_dropped sdk target h hevent
      cases hresult.symm.trans hsilent
      obtain ⟨path, message, member⟩ := hreviews
      cases member
  | some event' =>
      have hagree := handsetStep_taken sdk target h hevent
      rw [hresult] at hagree
      generalize hcall : appStep sdk event' handset.view = taken at hagree
      cases hagree with
      | @ok _ result' hviewed =>
          obtain ⟨houtputs, -, hview⟩ := hviewed
          have hround : Round sdk handset.view event' result'.1 result'.2 :=
            appStep_round sdk event' (show handset.view.command.Holds content from hholds) _ hcall
          rw [← houtputs, ← hview] at hround
          exact hround.putsUp hreviews

theorem PutsUpReview.settings_eq {device after : Device} {outputs : List Output}
    (h : PutsUpReview sdk device outputs after) : after.settings = device.settings := by
  obtain ⟨_, _, _, _, _, _, _, _, _, hputUp, _, _⟩ := h
  exact hputUp.same.settings

theorem InternalStorage.allowBlindSign_of_enabled {storage : InternalStorage}
    (h : storage.settings.allowBlindSign = .enabled) :
    storage.read .allowBlindSign = BlindSign.enabled.toByte := by
  by_contra hother
  have hdisabled : storage.settings.allowBlindSign = .disabled := if_neg hother
  cases hdisabled.symm.trans h

/-- Wherever a run has led, a message whose body the device cannot read is put
up only if blind signing has been allowed since the device booted, or the user
was the last to choose, and chose to allow it. -/
theorem blind_review_was_allowed (sdk : Sdk) (target : Target) (storage : InternalStorage)
    (h : storage.initialized = 0x01 → storage.Valid) (events : List HandsetEvent)
    (event : HandsetEvent) :
    Ensures (run (handsetStep sdk target) events (Handset.boot target storage)) fun reached =>
      Ensures (handsetStep sdk target event reached.2) fun result =>
        ∀ path message, .reviewed path message ∈ result.1 →
          ¬ ((bodyFormat result.2.device.command.instruction.toByte.toNat).Whole
              (message.drop hashSize) ∨
            (bodyFormat result.2.device.command.instruction.toByte.toNat).Short
              (message.drop hashSize)) →
          Chosen sdk target .allowBlindSign events (Handset.boot target storage)
            BlindSign.enabled.toByte := by
  intro reached hreached result hresult path message member hrejected
  have hsane : reached.2.Sane := handset_sane sdk target h events reached hreached
  have hputs := hsane.putsUp sdk target event result hresult ⟨path, message, member⟩
  have hsettings : result.2.view.settings = reached.2.storage.settings := hputs.settings_eq
  obtain ⟨message', ops, houtputs, -, hon, -⟩ := hputs.onScreen
  rw [houtputs, List.mem_singleton] at member
  cases member
  cases hon.source with
  | body _ haccepted _ => exact absurd haccepted hrejected
  | blind _ hblind _ =>
      rw [hsettings] at hblind
      rw [← InternalStorage.allowBlindSign_of_enabled hblind]
      exact (sane_boot target h).chosen sdk target events .allowBlindSign reached hreached

/-- A message of 33 bytes, one more than the header, in one APDU that asks for
confirmation. -/
def sampleRejectedApdu : List UInt8 :=
  [0xE0, 0x03, 0x01, 0x00, 39, 1, 1, 0x80, 0x00, 0x00, 0x2C] ++ List.replicate 33 7

/-- What it puts up on a new device whose user has allowed blind signing. -/
def sampleRejectedRound : Checked (List Output × InstructionCode) := do
  let (_, reached) ← run (handsetStep constantSdk .nanos) allowingBlindSign
    (Handset.boot .nanos ⟨0, 0, 0, 0⟩)
  let (outputs, after) ← handsetStep constantSdk .nanos (.apdu sampleRejectedApdu) reached
  return (outputs, after.device.command.instruction)

/-- The message comes up, and the user was the last to choose. -/
theorem blind_review_was_allowed_menu :
    Chosen constantSdk .nanos .allowBlindSign allowingBlindSign
      (Handset.boot .nanos ⟨0, 0, 0, 0⟩) BlindSign.enabled.toByte := by
  have hround : sampleRejectedRound =
      .ok ([.reviewed [0x8000002C] (List.replicate 33 7)], .signMessage) := by
    decide +kernel
  obtain ⟨⟨log, reached⟩, hreached, hrest⟩ := bind_eq_ok.mp hround
  obtain ⟨⟨outputs, after⟩, hstep, hresult⟩ := bind_eq_ok.mp hrest
  obtain ⟨rfl, hins⟩ : outputs = [.reviewed [0x8000002C] (List.replicate 33 7)] ∧
      after.device.command.instruction = .signMessage := by
    simpa using hresult
  apply blind_review_was_allowed constantSdk .nanos ⟨0, 0, 0, 0⟩ (fun h => absurd h (by decide))
    allowingBlindSign (.apdu sampleRejectedApdu) _ hreached _ hstep _ _ List.mem_cons_self
  rw [hins]
  -- A body of one byte is too short for the key of a transfer.
  have hshort : ∀ key tail : List UInt8, key.length = 32 →
      (List.replicate 33 7).drop hashSize ≠ key ++ tail := by
    intro key tail hkey hbody
    have hlength := congrArg List.length hbody
    simp only [List.length_drop, List.length_replicate, hashSize, List.length_append, hkey]
      at hlength
    omega
  rintro (⟨key, tail, hkey, -, hbody⟩ | hempty | ⟨key, tail, hkey, -, hbody⟩)
  · exact hshort key tail hkey hbody
  · cases hempty
  · exact hshort key tail hkey hbody

end Blind

end AelfApp
