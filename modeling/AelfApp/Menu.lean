import AelfApp.Rounds

/-!
The menus (`menu.c`) and the settings in flash. The device of the main loop
takes its settings from the storage; while no flow is on the screen the buttons
work the menus. A run of the whole is a run of that device in which the user
changes the settings.

The lists of the menus are run by the SDK. What is assumed of it is what their
getters and selectors are written for: a list opens at the entry it is told,
moves to a neighbouring entry that the getter has, and calls the selector with
the entry on the screen when both buttons are pressed. `ux_idle_flow` loops.
-/

namespace AelfApp

open Memory Apdu Libsol Machine

inductive DisplayMode where
  | user
  | expert
  deriving Repr, DecidableEq

def DisplayMode.toByte : DisplayMode → UInt8
  | .user => 0
  | .expert => 1

/-- The fields of `AppSettings` that have a submenu. -/
inductive Setting where
  | allowBlindSign
  | pubkeyDisplay
  | displayMode
  deriving Repr, DecidableEq

/-- `internalStorage_t`, as it lies in flash. -/
structure InternalStorage where
  allowBlindSign : UInt8
  pubkeyDisplay : UInt8
  displayMode : UInt8
  initialized : UInt8
  deriving Repr, DecidableEq

def InternalStorage.read (storage : InternalStorage) : Setting → UInt8
  | .allowBlindSign => storage.allowBlindSign
  | .pubkeyDisplay => storage.pubkeyDisplay
  | .displayMode => storage.displayMode

/-- `nvm_write` to the byte of a setting. -/
def InternalStorage.write (storage : InternalStorage) (value : UInt8) : Setting → InternalStorage
  | .allowBlindSign => { storage with allowBlindSign := value }
  | .pubkeyDisplay => { storage with pubkeyDisplay := value }
  | .displayMode => { storage with displayMode := value }

/-- The devices that the application is built for. -/
inductive Target where
  | nanos
  | nanox
  | nanos2
  deriving Repr, DecidableEq

def nvAppStateInit (target : Target) (storage : InternalStorage) : InternalStorage :=
  if storage.initialized ≠ 0x01 then
    { allowBlindSign := BlindSign.disabled.toByte
      pubkeyDisplay := match target with
        | .nanox | .nanos2 => PubkeyDisplay.long.toByte
        | .nanos => PubkeyDisplay.short.toByte
      displayMode := DisplayMode.user.toByte
      initialized := 0x01 }
  else storage

/-- How the handlers compare the bytes. -/
def InternalStorage.settings (storage : InternalStorage) : AppSettings where
  allowBlindSign :=
    if storage.allowBlindSign = BlindSign.enabled.toByte then .enabled else .disabled
  pubkeyDisplay := if storage.pubkeyDisplay = PubkeyDisplay.long.toByte then .long else .short

section Menus

inductive SettingsMenuOption where
  | allowBlindSign
  | pubkeyLength
  | displayMode
  | back
  deriving Repr, DecidableEq

def settingsSubmenuOptionIndex : SettingsMenuOption → Nat
  | .allowBlindSign => 0
  | .pubkeyLength => 1
  | .displayMode => 2
  | .back => 0

/-- What the buttons work on while no flow is on the screen: a step of
`ux_idle_flow`, an entry of a list, or nothing after the application has quit. -/
inductive Menu where
  | idleFlow (step : Nat)
  | settingsSubmenu (idx : Nat)
  | dataSubmenu (setting : Setting) (idx : Nat)
  | exited
  deriving Repr, DecidableEq

def settingsSubmenuGetterValues : List String :=
  ["Allow blind sign", "Pubkey length", "Display mode", "Back"]

def noYesDataGetterValues : List String := ["No", "Yes", "Back"]
def pubkeyDisplayDataGetterValues : List String := ["Long", "Short", "Back"]
def displayModeDataGetterValues : List String := ["User", "Expert", "Back"]

def settingsSubmenuGetter (idx : Nat) : Option String := settingsSubmenuGetterValues[idx]?
def allowBlindSignDataGetter (idx : Nat) : Option String := noYesDataGetterValues[idx]?
def pubkeyDisplayDataGetter (idx : Nat) : Option String := pubkeyDisplayDataGetterValues[idx]?
def displayModeDataGetter (idx : Nat) : Option String := displayModeDataGetterValues[idx]?

def Setting.getter : Setting → Nat → Option String
  | .allowBlindSign => allowBlindSignDataGetter
  | .pubkeyDisplay => pubkeyDisplayDataGetter
  | .displayMode => displayModeDataGetter

def settingsSubmenuSelector (idx : Nat) (storage : InternalStorage) : Menu :=
  match idx with
  | 0 => .dataSubmenu .allowBlindSign storage.allowBlindSign.toNat
  | 1 => .dataSubmenu .pubkeyDisplay storage.pubkeyDisplay.toNat
  | 2 => .dataSubmenu .displayMode storage.displayMode.toNat
  | _ => .idleFlow 0

def allowBlindSignDataChange (blindSign : BlindSign) (storage : InternalStorage) :
    InternalStorage :=
  storage.write blindSign.toByte .allowBlindSign

def pubkeyDisplayDataChange (pubkeyDisplay : PubkeyDisplay) (storage : InternalStorage) :
    InternalStorage :=
  storage.write pubkeyDisplay.toByte .pubkeyDisplay

def displayModeDataChange (displayMode : DisplayMode) (storage : InternalStorage) :
    InternalStorage :=
  storage.write displayMode.toByte .displayMode

/-- A selector of a submenu: its entries are two values and the way back, which
changes nothing. -/
def dataSelector {α : Type} (first second : α) (change : α → InternalStorage → InternalStorage)
    (option : SettingsMenuOption) (idx : Nat) (storage : InternalStorage) :
    Menu × InternalStorage :=
  let storage := match idx with
    | 0 => change first storage
    | 1 => change second storage
    | _ => storage
  (.settingsSubmenu (settingsSubmenuOptionIndex option), storage)

def allowBlindSignDataSelector : Nat → InternalStorage → Menu × InternalStorage :=
  dataSelector BlindSign.disabled BlindSign.enabled allowBlindSignDataChange .allowBlindSign

def pubkeyDisplayDataSelector : Nat → InternalStorage → Menu × InternalStorage :=
  dataSelector PubkeyDisplay.long PubkeyDisplay.short pubkeyDisplayDataChange .pubkeyLength

def displayModeDataSelector : Nat → InternalStorage → Menu × InternalStorage :=
  dataSelector DisplayMode.user DisplayMode.expert displayModeDataChange .displayMode

def Setting.selector : Setting → Nat → InternalStorage → Menu × InternalStorage
  | .allowBlindSign => allowBlindSignDataSelector
  | .pubkeyDisplay => pubkeyDisplayDataSelector
  | .displayMode => displayModeDataSelector

/-- A list of the SDK moves to an entry that its getter has. -/
def menulistLeft (getter : Nat → Option String) (current : Nat) : Nat :=
  if current ≠ 0 ∧ (getter (current - 1)).isSome then current - 1 else current

def menulistRight (getter : Nat → Option String) (current : Nat) : Nat :=
  if (getter (current + 1)).isSome then current + 1 else current

def idleFlowSteps : Nat := 4

def Menu.left : Menu → Menu
  | .idleFlow step => .idleFlow ((step + (idleFlowSteps - 1)) % idleFlowSteps)
  | .settingsSubmenu idx => .settingsSubmenu (menulistLeft settingsSubmenuGetter idx)
  | .dataSubmenu setting idx => .dataSubmenu setting (menulistLeft setting.getter idx)
  | .exited => .exited

def Menu.right : Menu → Menu
  | .idleFlow step => .idleFlow ((step + 1) % idleFlowSteps)
  | .settingsSubmenu idx => .settingsSubmenu (menulistRight settingsSubmenuGetter idx)
  | .dataSubmenu setting idx => .dataSubmenu setting (menulistRight setting.getter idx)
  | .exited => .exited

/-- Both buttons in a menu. The second step of `ux_idle_flow` opens the
settings, and the fourth quits. -/
def Menu.both (storage : InternalStorage) : Menu → Menu × InternalStorage
  | .idleFlow step =>
    if step = 1 then (.settingsSubmenu 0, storage)
    else if step = 3 then (.exited, storage)
    else (.idleFlow step, storage)
  | .settingsSubmenu idx => (settingsSubmenuSelector idx storage, storage)
  | .dataSubmenu setting idx => setting.selector idx storage
  | .exited => (.exited, storage)

end Menus

section Handset

/-- The device with its menus and its flash. -/
structure Handset where
  device : Device
  menu : Menu
  storage : InternalStorage

/-- The device that the main loop works on: its settings are those in flash. -/
def Handset.view (handset : Handset) : Device :=
  { handset.device with settings := handset.storage.settings }

def Handset.boot (target : Target) (storage : InternalStorage) : Handset where
  device := Device.boot (nvAppStateInit target storage).settings
  menu := .idleFlow 0
  storage := nvAppStateInit target storage

inductive HandsetEvent where
  | apdu (bytes : List UInt8)
  | left
  | right
  | pageTurn
  | both
  | ioReset
  deriving DecidableEq

/-- A round of the main loop. A flow that ends gives way to `ux_idle_flow`. -/
def Handset.round (sdk : Sdk) (event : Event) (handset : Handset) :
    Checked (List Output × Handset) := do
  let (outputs, device) ← appStep sdk event handset.view
  let menu := if handset.device.flow ≠ .idle ∧ device.flow = .idle then .idleFlow 0
    else handset.menu
  return (outputs, { handset with device, menu })

/-- One event. After it has quit the application does nothing any more. -/
def handsetStep (sdk : Sdk) (target : Target) (event : HandsetEvent) (handset : Handset) :
    Checked (List Output × Handset) :=
  if handset.menu = .exited then .ok ([], handset)
  else match event with
  | .apdu bytes => handset.round sdk (.apdu bytes)
  | .left =>
    if handset.device.flow = .idle then .ok ([], { handset with menu := handset.menu.left })
    else handset.round sdk .left
  | .right =>
    if handset.device.flow = .idle then .ok ([], { handset with menu := handset.menu.right })
    else handset.round sdk .right
  | .pageTurn =>
    if handset.device.flow = .idle then .ok ([], handset) else handset.round sdk .pageTurn
  | .both =>
    if handset.device.flow = .idle then
      let (menu, storage) := handset.menu.both handset.storage
      .ok ([], { handset with menu, storage })
    else handset.round sdk .both
  | .ioReset => do
    let (outputs, device) ← appStep sdk .ioReset handset.view
    return (outputs, ⟨device, .idleFlow 0, nvAppStateInit target handset.storage⟩)

end Handset

section Storage

/-- The bytes are those of the enumerators. -/
structure InternalStorage.Valid (storage : InternalStorage) : Prop where
  values : ∀ setting, (storage.read setting).toNat < 2
  initialized : storage.initialized = 0x01

theorem InternalStorage.read_write (storage : InternalStorage) (value : UInt8)
    (setting : Setting) : (storage.write value setting).read setting = value := by
  cases setting <;> rfl

theorem InternalStorage.read_write_of_ne (storage : InternalStorage) (value : UInt8)
    {setting other : Setting} (h : other ≠ setting) :
    (storage.write value setting).read other = storage.read other := by
  cases setting <;> cases other <;> first | rfl | exact absurd rfl h

theorem InternalStorage.Valid.write {storage : InternalStorage} (h : storage.Valid)
    {value : UInt8} (hvalue : value.toNat < 2) (setting : Setting) :
    (storage.write value setting).Valid := by
  constructor
  · intro other
    by_cases hother : other = setting
    · rw [hother, storage.read_write]
      exact hvalue
    · rw [storage.read_write_of_ne value hother]
      exact h.values other
  · have hinitialized := h.initialized
    cases setting <;> exact hinitialized

theorem nvAppStateInit_of_initialized (target : Target) {storage : InternalStorage}
    (h : storage.initialized = 0x01) : nvAppStateInit target storage = storage := by
  simp [nvAppStateInit, h]

theorem nvAppStateInit_valid (target : Target) {storage : InternalStorage}
    (h : storage.initialized = 0x01 → storage.Valid) : (nvAppStateInit target storage).Valid := by
  by_cases hinitialized : storage.initialized = 0x01
  · rw [nvAppStateInit_of_initialized target hinitialized]
    exact h hinitialized
  · simp only [nvAppStateInit, ne_eq, hinitialized, not_false_eq_true, ↓reduceIte]
    constructor
    · intro setting
      cases target <;> cases setting <;> decide
    · rfl

theorem byte_of_lt_two {b : UInt8} (h : b.toNat < 2) : b = 0 ∨ b = 1 := by
  rcases Nat.lt_succ_iff_lt_or_eq.mp h with hzero | hone
  · exact .inl (UInt8.toNat_inj.mp (Nat.lt_one_iff.mp hzero))
  · exact .inr (UInt8.toNat_inj.mp hone)

/-- The configuration that the host is sent consists of the stored bytes. -/
theorem InternalStorage.Valid.configuration {storage : InternalStorage} (h : storage.Valid) :
    storage.settings.allowBlindSign.toByte = storage.allowBlindSign ∧
      storage.settings.pubkeyDisplay.toByte = storage.pubkeyDisplay := by
  have hblind : storage.allowBlindSign = 0 ∨ storage.allowBlindSign = 1 :=
    byte_of_lt_two (h.values .allowBlindSign)
  have hpubkey : storage.pubkeyDisplay = 0 ∨ storage.pubkeyDisplay = 1 :=
    byte_of_lt_two (h.values .pubkeyDisplay)
  constructor
  · rcases hblind with hbyte | hbyte <;> rw [InternalStorage.settings, hbyte] <;> rfl
  · rcases hpubkey with hbyte | hbyte <;> rw [InternalStorage.settings, hbyte] <;> rfl

/-- The entry of a setting in the list of settings. -/
def Setting.option : Setting → SettingsMenuOption
  | .allowBlindSign => .allowBlindSign
  | .pubkeyDisplay => .pubkeyLength
  | .displayMode => .displayMode

/-- A selector stores the value that its entry stands for, which is the entry's
index, and returns to the list of settings. -/
theorem Setting.selector_eq (setting : Setting) (idx : Nat) (storage : InternalStorage) :
    setting.selector idx storage =
      (.settingsSubmenu (settingsSubmenuOptionIndex setting.option),
        if idx < 2 then storage.write (UInt8.ofNat idx) setting else storage) := by
  rcases idx with _ | _ | idx
  · cases setting <;> rfl
  · cases setting <;> rfl
  · have hback : ¬ idx + 1 + 1 < 2 := by omega
    rw [if_neg hback]
    cases setting <;> rfl

theorem InternalStorage.Valid.both {storage : InternalStorage} (h : storage.Valid)
    (menu : Menu) : (menu.both storage).2.Valid := by
  cases menu with
  | idleFlow step =>
      simp only [Menu.both]
      split
      · exact h
      · split <;> exact h
  | settingsSubmenu idx => exact h
  | dataSubmenu setting idx =>
      simp only [Menu.both, setting.selector_eq]
      split
      · rename_i hidx
        apply h.write
        simp only [UInt8.toNat_ofNat']
        omega
      · exact h
  | exited => exact h

end Storage

section Lists

/-- The step or entry is one that the menu has. -/
def Menu.InRange : Menu → Prop
  | .idleFlow step => step < idleFlowSteps
  | .settingsSubmenu idx => idx < settingsSubmenuGetterValues.length
  | .dataSubmenu _ idx => idx < 3
  | .exited => True

theorem settingsSubmenuGetter_isSome (idx : Nat) :
    (settingsSubmenuGetter idx).isSome ↔ idx < settingsSubmenuGetterValues.length := by
  simp [settingsSubmenuGetter]

theorem Setting.getter_isSome (setting : Setting) (idx : Nat) :
    (setting.getter idx).isSome ↔ idx < 3 := by
  cases setting <;> simp [Setting.getter, allowBlindSignDataGetter, noYesDataGetterValues,
    pubkeyDisplayDataGetter, pubkeyDisplayDataGetterValues, displayModeDataGetter,
    displayModeDataGetterValues]

variable {getter : Nat → Option String} {count : Nat}

theorem menulistRight_eq (h : ∀ idx, (getter idx).isSome ↔ idx < count) {idx : Nat}
    (hidx : idx + 1 < count) : menulistRight getter idx = idx + 1 := by
  rw [menulistRight, if_pos ((h _).mpr hidx)]

theorem menulistLeft_succ (h : ∀ idx, (getter idx).isSome ↔ idx < count) {idx : Nat}
    (hidx : idx + 1 < count) : menulistLeft getter (idx + 1) = idx := by
  rw [menulistLeft, if_pos ⟨Nat.succ_ne_zero idx, (h _).mpr (Nat.lt_of_succ_lt hidx)⟩,
    Nat.add_sub_cancel]

theorem menulistRight_lt (h : ∀ idx, (getter idx).isSome ↔ idx < count) {idx : Nat}
    (hidx : idx < count) : menulistRight getter idx < count := by
  unfold menulistRight
  split
  · rename_i hnext
    exact (h _).mp hnext
  · exact hidx

theorem menulistLeft_lt {idx : Nat} (hidx : idx < count) : menulistLeft getter idx < count := by
  unfold menulistLeft
  split <;> omega

theorem Menu.InRange.left {menu : Menu} (h : menu.InRange) : menu.left.InRange := by
  cases menu with
  | idleFlow step => exact Nat.mod_lt _ (by decide)
  | settingsSubmenu idx => exact menulistLeft_lt h
  | dataSubmenu setting idx => exact menulistLeft_lt (show idx < 3 from h)
  | exited => trivial

theorem Menu.InRange.right {menu : Menu} (h : menu.InRange) : menu.right.InRange := by
  cases menu with
  | idleFlow step => exact Nat.mod_lt _ (by decide)
  | settingsSubmenu idx => exact menulistRight_lt settingsSubmenuGetter_isSome h
  | dataSubmenu setting idx => exact menulistRight_lt setting.getter_isSome h
  | exited => trivial

theorem settingsSubmenuSelector_option (setting : Setting) (storage : InternalStorage) :
    settingsSubmenuSelector (settingsSubmenuOptionIndex setting.option) storage =
      .dataSubmenu setting (storage.read setting).toNat := by
  cases setting <;> rfl

theorem settingsSubmenuOptionIndex_lt (option : SettingsMenuOption) :
    settingsSubmenuOptionIndex option < settingsSubmenuGetterValues.length := by
  cases option <;> decide

/-- A list of values opens at the stored one. -/
theorem InternalStorage.Valid.selector_inRange {storage : InternalStorage} (h : storage.Valid)
    (idx : Nat) : (settingsSubmenuSelector idx storage).InRange := by
  have hvalue := fun setting => Nat.lt_succ_of_lt (h.values setting)
  unfold settingsSubmenuSelector
  split
  · exact hvalue .allowBlindSign
  · exact hvalue .pubkeyDisplay
  · exact hvalue .displayMode
  · exact Nat.zero_lt_succ _

theorem InternalStorage.Valid.both_inRange {storage : InternalStorage} (h : storage.Valid)
    {menu : Menu} (hmenu : menu.InRange) : (menu.both storage).1.InRange := by
  cases menu with
  | idleFlow step =>
      simp only [Menu.both]
      split
      · exact Nat.zero_lt_succ _
      · split
        · trivial
        · exact hmenu
  | settingsSubmenu idx => exact h.selector_inRange idx
  | dataSubmenu setting idx =>
      simp only [Menu.both, setting.selector_eq]
      exact settingsSubmenuOptionIndex_lt _
  | exited => trivial

end Lists

section Refinement

variable {sdk : Sdk} {target : Target} {handset : Handset}

/-- What every state of the handset is like. -/
structure Handset.Sane (handset : Handset) : Prop where
  storage : handset.storage.Valid
  menu : handset.menu.InRange
  holds : ∃ message, handset.device.command.Holds message

/-- Only the menus change the settings. -/
theorem Round.settings_eq {device after : Device} {event : Event} {outputs : List Output}
    (h : Round sdk device event outputs after)
    (hevent : ∀ settings, event ≠ .settings settings) : after.settings = device.settings := by
  cases h with
  | noApdu => rfl
  | apdu bytes message _ _ _ _ h =>
      cases h with
      | refused _ _ _ _ _ => rfl
      | progress _ _ _ _ => rfl
      | complete _ _ _ _ _ _ _ _ _ hdispatch => exact hdispatch.same.2
  | stayed _ _ _ => rfl
  | moved _ flow _ _ _ h =>
      obtain ⟨summary, -, rfl⟩ := h.eq
      rfl
  | keyApproved _ => rfl
  | signed _ _ _ _ => rfl
  | unsigned _ _ _ _ => rfl
  | rejected _ => rfl
  | settings settings _ => exact absurd rfl (hevent settings)
  | ioReset => rfl

/-- The relation between the answers of the handset and of its device. -/
def Viewed (result : List Output × Handset) (result' : List Output × Device) : Prop :=
  result.1 = result'.1 ∧ result.2.Sane ∧ result.2.view = result'.2

/-- A round of the handset is one of its device. -/
theorem Handset.Sane.round (h : handset.Sane) {event : Event}
    (hevent : ∀ settings, event ≠ .settings settings) :
    Agree Viewed (handset.round sdk event) (appStep sdk event handset.view) := by
  obtain ⟨message, hholds⟩ := h.holds
  have hround : Ensures (appStep sdk event handset.view) fun result =>
      Round sdk handset.view event result.1 result.2 := appStep_round sdk event hholds
  unfold Handset.round
  generalize appStep sdk event handset.view = result at hround ⊢
  cases result with
  | error e => exact .error e
  | ok result =>
      obtain ⟨outputs, after⟩ := result
      have hafter : Round sdk handset.view event outputs after := hround _ rfl
      have hsettings : after.settings = handset.storage.settings := hafter.settings_eq hevent
      refine .ok ⟨rfl, ⟨h.storage, ?_, hafter.holds ⟨message, hholds⟩⟩, ?_⟩
      · simp only
        split
        · exact Nat.zero_lt_succ _
        · exact h.menu
      · simp only [Handset.view, ← hsettings]

/-- A press that the menus would take goes to the device if a flow is up. -/
theorem Handset.Sane.press (h : handset.Sane) {press event' : Event}
    {menus : Checked (List Output × Handset)} (hpress : ∀ settings, press ≠ .settings settings)
    (hsome : (if handset.device.flow = .idle then none else some press) = some event') :
    Agree Viewed (if handset.device.flow = .idle then menus else handset.round sdk press)
      (appStep sdk event' handset.view) := by
  by_cases hidle : handset.device.flow = .idle
  · rw [if_pos hidle] at hsome
    cases hsome
  · rw [if_neg hidle] at hsome ⊢
    cases hsome
    exact h.round hpress

/-- What an event of the handset is for its device: the APDUs and the presses in
a flow are the same, and both buttons in the menus set the settings to those then
in flash. What else is pressed in the menus, or after the application has quit,
is nothing. -/
def Handset.deviceEvent (event : HandsetEvent) (handset : Handset) : Option Event :=
  if handset.menu = .exited then none
  else match event with
  | .apdu bytes => some (.apdu bytes)
  | .left => if handset.device.flow = .idle then none else some .left
  | .right => if handset.device.flow = .idle then none else some .right
  | .pageTurn => if handset.device.flow = .idle then none else some .pageTurn
  | .both =>
    if handset.device.flow = .idle then
      some (.settings (handset.menu.both handset.storage).2.settings)
    else some .both
  | .ioReset => some .ioReset

/-- What the device has no event for stays in the menus. -/
theorem handsetStep_dropped (sdk : Sdk) (target : Target) {event : HandsetEvent}
    (h : handset.Sane) (hnone : handset.deviceEvent event = none) :
    ∃ handset', handsetStep sdk target event handset = .ok ([], handset') ∧ handset'.Sane ∧
      handset'.view = handset.view := by
  by_cases hexited : handset.menu = .exited
  · refine ⟨handset, ?_, h, rfl⟩
    simp only [handsetStep, hexited, ↓reduceIte]
  by_cases hidle : handset.device.flow = .idle
  swap
  · cases event <;> simp [Handset.deviceEvent, hexited, hidle] at hnone
  cases event with
  | apdu bytes => simp [Handset.deviceEvent, hexited] at hnone
  | left =>
      refine ⟨{ handset with menu := handset.menu.left }, ?_,
        ⟨h.storage, h.menu.left, h.holds⟩, rfl⟩
      simp only [handsetStep, hexited, hidle, ↓reduceIte]
  | right =>
      refine ⟨{ handset with menu := handset.menu.right }, ?_,
        ⟨h.storage, h.menu.right, h.holds⟩, rfl⟩
      simp only [handsetStep, hexited, hidle, ↓reduceIte]
  | pageTurn =>
      refine ⟨handset, ?_, h, rfl⟩
      simp only [handsetStep, hexited, hidle, ↓reduceIte]
  | both => simp [Handset.deviceEvent, hexited, hidle] at hnone
  | ioReset => simp [Handset.deviceEvent, hexited] at hnone

/-- The device takes its event as the handset does. -/
theorem handsetStep_taken (sdk : Sdk) (target : Target) {event : HandsetEvent} {event' : Event}
    (h : handset.Sane) (hsome : handset.deviceEvent event = some event') :
    Agree Viewed (handsetStep sdk target event handset) (appStep sdk event' handset.view) := by
  have hexited : handset.menu ≠ .exited := by
    intro hexited
    simp [Handset.deviceEvent, hexited] at hsome
  simp only [Handset.deviceEvent, hexited, ↓reduceIte] at hsome
  simp only [handsetStep, hexited, ↓reduceIte]
  cases event with
  | apdu bytes =>
      cases hsome
      exact h.round (by simp)
  | left => exact h.press (by simp) hsome
  | right => exact h.press (by simp) hsome
  | pageTurn => exact h.press (by simp) hsome
  | both =>
      by_cases hidle : handset.device.flow = .idle <;> simp only [hidle, ↓reduceIte] at hsome ⊢
      · -- The settings may change, and do so while no flow is on the screen.
        cases hsome
        have hflow : handset.view.flow = .idle := hidle
        simp only [appStep, hflow]
        refine .ok ⟨rfl, ⟨h.storage.both handset.menu, h.storage.both_inRange h.menu,
          h.holds⟩, ?_⟩
        simp only [Handset.view, ← hidle]
      · cases hsome
        exact h.round (by simp)
  | ioReset =>
      cases hsome
      have hstorage := nvAppStateInit_of_initialized target h.storage.initialized
      simp only [hstorage]
      exact .ok ⟨rfl, ⟨h.storage, Nat.zero_lt_succ _, [], zero_holds⟩, rfl⟩

theorem sane_boot (target : Target) {storage : InternalStorage}
    (h : storage.initialized = 0x01 → storage.Valid) : (Handset.boot target storage).Sane :=
  ⟨nvAppStateInit_valid target h, Nat.zero_lt_succ _, [], zero_holds⟩

/-- The events of the device in a run of the handset. -/
def deviceEvents (sdk : Sdk) (target : Target) : List HandsetEvent → Handset → List Event :=
  translated (handsetStep sdk target) fun event handset => handset.deviceEvent event

/-- Every run of the handset, with its menus and its flash, is the run of the
device that gets the same APDUs and presses, and new settings where the menus
are used: it has the same outputs and the same faults, and leaves the device
with the settings in flash. The bytes in flash stay those of enumerators. -/
theorem handset_refines_device (sdk : Sdk) (target : Target) (storage : InternalStorage)
    (h : storage.initialized = 0x01 → storage.Valid) (events : List HandsetEvent) :
    Agree (fun result result' =>
        result.1.flatMap Prod.snd = result'.1.flatMap Prod.snd ∧ result.2.storage.Valid ∧
          result.2.view = result'.2)
      (run (handsetStep sdk target) events (Handset.boot target storage))
      (run (appStep sdk) (deviceEvents sdk target events (Handset.boot target storage))
        (Device.boot (nvAppStateInit target storage).settings)) := by
  have hrun := run_refines (fun event handset => Handset.deviceEvent event handset) Handset.view
    Handset.Sane (fun _ _ hsane hnone => handsetStep_dropped sdk target hsane hnone)
    (fun _ _ _ hsane hsome => handsetStep_taken sdk target hsane hsome) events (sane_boot target h)
  apply hrun.mono
  rintro ⟨log, handset⟩ ⟨log', device⟩ ⟨houtputs, hsane, hview⟩
  exact ⟨houtputs, hsane.storage, hview⟩

/-- From the first step of `ux_idle_flow` to the entry "Yes" of the first list. -/
def allowingBlindSign : List HandsetEvent := [.right, .both, .both, .right, .both]

/-- Blind signing is allowed in flash that has never been written, and a transfer
comes up. -/
theorem handset_refines_device_fresh :
    Agree (fun result result' =>
        result.1.flatMap Prod.snd = result'.1.flatMap Prod.snd ∧ result.2.storage.Valid ∧
          result.2.view = result'.2)
      (run (handsetStep constantSdk .nanos) (allowingBlindSign ++ [.apdu sampleApdu, .right])
        (Handset.boot .nanos ⟨0, 0, 0, 0⟩))
      (run (appStep constantSdk)
        (deviceEvents constantSdk .nanos (allowingBlindSign ++ [.apdu sampleApdu, .right])
          (Handset.boot .nanos ⟨0, 0, 0, 0⟩))
        (Device.boot (nvAppStateInit .nanos ⟨0, 0, 0, 0⟩).settings)) := by
  have hunwritten : (⟨0, 0, 0, 0⟩ : InternalStorage).initialized ≠ 0x01 := by decide
  exact handset_refines_device constantSdk .nanos ⟨0, 0, 0, 0⟩ (fun h => absurd h hunwritten) _

/-- The device of that run. -/
example :
    deviceEvents constantSdk .nanos (allowingBlindSign ++ [.apdu sampleApdu, .right])
        (Handset.boot .nanos ⟨0, 0, 0, 0⟩) =
      [.settings ⟨.disabled, .short⟩, .settings ⟨.disabled, .short⟩,
        .settings ⟨.enabled, .short⟩, .apdu sampleApdu, .right] := by
  decide +kernel

end Refinement

end AelfApp
