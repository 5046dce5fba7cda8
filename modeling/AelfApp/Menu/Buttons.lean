import AelfApp.Menu

/-!
The buttons lead everywhere in the menus: whatever has happened, the user can
store any value of any setting.
-/

namespace AelfApp

open Memory Apdu Libsol Machine

section Reaching

variable {sdk : Sdk} {target : Target} {device : Device} {storage : InternalStorage}

/-- The buttons alone lead from one state to the other, and the host notices
nothing. -/
def Presses (sdk : Sdk) (target : Target) (before after : Handset) : Prop :=
  ∃ presses log, (∀ event ∈ presses, event = .left ∨ event = .right ∨ event = .both) ∧
    run (handsetStep sdk target) presses before = .ok (log, after) ∧ ∀ entry ∈ log, entry.2 = []

theorem Presses.refl (handset : Handset) : Presses sdk target handset handset :=
  ⟨[], [], by simp, rfl, by simp⟩

theorem Presses.trans {a b c : Handset} (hab : Presses sdk target a b)
    (hbc : Presses sdk target b c) : Presses sdk target a c := by
  obtain ⟨first, log, hfirst, hrun, hsilent⟩ := hab
  obtain ⟨second, more, hsecond, hrun', hsilent'⟩ := hbc
  exact ⟨first ++ second, log ++ more, List.forall_mem_append.mpr ⟨hfirst, hsecond⟩,
    run_append hrun hrun', List.forall_mem_append.mpr ⟨hsilent, hsilent'⟩⟩

theorem presses_one {event : HandsetEvent} {before after : Handset}
    (hevent : event = .left ∨ event = .right ∨ event = .both)
    (hstep : handsetStep sdk target event before = .ok ([], after)) :
    Presses sdk target before after :=
  ⟨[event], [(event, [])], by simpa using hevent, run_cons_ok hstep rfl, by simp⟩

variable (sdk : Sdk) (target : Target) (storage : InternalStorage) (hidle : device.flow = .idle)
include hidle

theorem presses_left {menu : Menu} (h : menu ≠ .exited) :
    Presses sdk target ⟨device, menu, storage⟩ ⟨device, menu.left, storage⟩ := by
  apply presses_one (.inl rfl)
  simp only [handsetStep, h, hidle, ↓reduceIte]

theorem presses_right {menu : Menu} (h : menu ≠ .exited) :
    Presses sdk target ⟨device, menu, storage⟩ ⟨device, menu.right, storage⟩ := by
  apply presses_one (.inr (.inl rfl))
  simp only [handsetStep, h, hidle, ↓reduceIte]

theorem presses_both {menu : Menu} (h : menu ≠ .exited) :
    Presses sdk target ⟨device, menu, storage⟩
      ⟨device, (menu.both storage).1, (menu.both storage).2⟩ := by
  apply presses_one (.inr (.inr rfl))
  simp only [handsetStep, h, hidle, ↓reduceIte]

/-- Every entry of a list can be reached from every other one. -/
theorem presses_along {list : Nat → Menu} {count : Nat} (hlist : ∀ idx, list idx ≠ .exited)
    (hright : ∀ idx, idx + 1 < count → (list idx).right = list (idx + 1))
    (hleft : ∀ idx, idx + 1 < count → (list (idx + 1)).left = list idx)
    {i j : Nat} (hi : i < count) (hj : j < count) :
    Presses sdk target ⟨device, list i, storage⟩ ⟨device, list j, storage⟩ := by
  have hup : ∀ steps i, i + steps < count →
      Presses sdk target ⟨device, list i, storage⟩ ⟨device, list (i + steps), storage⟩ := by
    intro steps
    induction steps with
    | zero => exact fun i _ => .refl _
    | succ steps ih =>
        intro i hroom
        have hnext := presses_right sdk target storage hidle (hlist (i + steps))
        rw [hright (i + steps) hroom] at hnext
        exact (ih i (Nat.lt_of_succ_lt hroom)).trans hnext
  have hdown : ∀ steps i, i + steps < count →
      Presses sdk target ⟨device, list (i + steps), storage⟩ ⟨device, list i, storage⟩ := by
    intro steps
    induction steps with
    | zero => exact fun i _ => .refl _
    | succ steps ih =>
        intro i hroom
        have hnext := presses_left sdk target storage hidle (hlist (i + steps + 1))
        rw [hleft (i + steps) hroom] at hnext
        exact hnext.trans (ih i (Nat.lt_of_succ_lt hroom))
  rcases Nat.le_total i j with hle | hle
  · have hpath := hup (j - i) i (by omega)
    rwa [Nat.add_sub_cancel' hle] at hpath
  · have hpath := hdown (i - j) j (by omega)
    rwa [Nat.add_sub_cancel' hle] at hpath

theorem presses_idleFlow {i j : Nat} (hi : i < idleFlowSteps) (hj : j < idleFlowSteps) :
    Presses sdk target ⟨device, .idleFlow i, storage⟩ ⟨device, .idleFlow j, storage⟩ := by
  apply presses_along sdk target storage hidle (by simp) _ _ hi hj
  · intro idx hidx
    rw [Menu.right, Nat.mod_eq_of_lt hidx]
  · intro idx hidx
    rw [Menu.left, show idx + 1 + (idleFlowSteps - 1) = idx + idleFlowSteps from rfl,
      Nat.add_mod_right, Nat.mod_eq_of_lt (Nat.lt_of_succ_lt hidx)]

theorem presses_settingsSubmenu {i j : Nat} (hi : i < settingsSubmenuGetterValues.length)
    (hj : j < settingsSubmenuGetterValues.length) :
    Presses sdk target ⟨device, .settingsSubmenu i, storage⟩
      ⟨device, .settingsSubmenu j, storage⟩ := by
  apply presses_along sdk target storage hidle (by simp) _ _ hi hj
  · intro idx hidx
    rw [Menu.right, menulistRight_eq settingsSubmenuGetter_isSome hidx]
  · intro idx hidx
    rw [Menu.left, menulistLeft_succ settingsSubmenuGetter_isSome hidx]

theorem presses_dataSubmenu (setting : Setting) {i j : Nat} (hi : i < 3) (hj : j < 3) :
    Presses sdk target ⟨device, .dataSubmenu setting i, storage⟩
      ⟨device, .dataSubmenu setting j, storage⟩ := by
  apply presses_along sdk target storage hidle (by simp) _ _ hi hj
  · intro idx hidx
    rw [Menu.right, menulistRight_eq setting.getter_isSome hidx]
  · intro idx hidx
    rw [Menu.left, menulistLeft_succ setting.getter_isSome hidx]

/-- The settings can be reached from everywhere, and nothing is stored on the way. -/
theorem presses_toSettings {menu : Menu} (hmenu : menu.InRange) (h : menu ≠ .exited) :
    ∃ idx < settingsSubmenuGetterValues.length,
      Presses sdk target ⟨device, menu, storage⟩ ⟨device, .settingsSubmenu idx, storage⟩ := by
  cases menu with
  | idleFlow step =>
      have hstep : 1 < idleFlowSteps := by decide
      exact ⟨0, Nat.zero_lt_succ _,
        (presses_idleFlow sdk target storage hidle hmenu hstep).trans
          (presses_both sdk target storage hidle (by simp))⟩
  | settingsSubmenu idx => exact ⟨idx, hmenu, .refl _⟩
  | dataSubmenu setting idx =>
      have hback := presses_dataSubmenu sdk target storage hidle
        setting hmenu (show 2 < 3 by omega)
      have hboth := presses_both sdk target storage hidle
        (show Menu.dataSubmenu setting 2 ≠ .exited by simp)
      simp only [Menu.both, setting.selector_eq, Nat.lt_irrefl, ↓reduceIte] at hboth
      exact ⟨_, settingsSubmenuOptionIndex_lt _, hback.trans hboth⟩
  | exited => exact absurd rfl h

/-- From the list of settings any value of any of them can be stored. -/
theorem presses_toValue (hstorage : storage.Valid) (setting : Setting) {value idx : Nat}
    (hvalue : value < 2) (hidx : idx < settingsSubmenuGetterValues.length) :
    Presses sdk target ⟨device, .settingsSubmenu idx, storage⟩
      ⟨device, .settingsSubmenu (settingsSubmenuOptionIndex setting.option),
        storage.write (UInt8.ofNat value) setting⟩ := by
  have hentry := presses_settingsSubmenu sdk target storage hidle hidx
    (settingsSubmenuOptionIndex_lt setting.option)
  have hopen := presses_both sdk target storage hidle
    (show Menu.settingsSubmenu (settingsSubmenuOptionIndex setting.option) ≠ .exited by simp)
  have hmove := presses_dataSubmenu sdk target storage hidle
    setting (Nat.lt_succ_of_lt (hstorage.values setting)) (Nat.lt_succ_of_lt hvalue)
  have hstore := presses_both sdk target storage hidle
    (show Menu.dataSubmenu setting value ≠ .exited by simp)
  simp only [Menu.both, settingsSubmenuSelector_option] at hopen
  simp only [Menu.both, setting.selector_eq, hvalue, ↓reduceIte] at hstore
  exact hentry.trans (hopen.trans (hmove.trans hstore))

end Reaching

section Settings

theorem Handset.Sane.step {handset : Handset} (h : handset.Sane) (sdk : Sdk) (target : Target)
    (event : HandsetEvent) :
    Ensures (handsetStep sdk target event handset) fun result => result.2.Sane := by
  intro result hresult
  cases hevent : handset.deviceEvent event with
  | none =>
      obtain ⟨handset', hsilent, hsane, -⟩ := handsetStep_dropped sdk target h hevent
      cases hresult.symm.trans hsilent
      exact hsane
  | some event' =>
      have hagree := handsetStep_taken sdk target h hevent
      rw [hresult] at hagree
      generalize appStep sdk event' handset.view = result' at hagree
      cases hagree with
      | ok hviewed => exact hviewed.2.1

theorem handset_sane (sdk : Sdk) (target : Target) {storage : InternalStorage}
    (h : storage.initialized = 0x01 → storage.Valid) (events : List HandsetEvent) :
    Ensures (run (handsetStep sdk target) events (Handset.boot target storage)) fun result =>
      result.2.Sane :=
  run_ensures (fun _ handset => handset.Sane) (fun _ _ => True)
    (fun _ _ event hsane _ => hsane.step sdk target event) events [] (Handset.boot target storage)
    (sane_boot target h) (within_always events _)

/-- Whatever has happened, while no flow is on the screen and until the
application has quit, the buttons alone can store any value of any setting:
nothing else changes, the host notices nothing, and the list of the setting
then opens at the new value. -/
theorem settings_reachable (sdk : Sdk) (target : Target) (storage : InternalStorage)
    (h : storage.initialized = 0x01 → storage.Valid) (events : List HandsetEvent)
    (setting : Setting) (value : Nat) (hvalue : value < 2) :
    Ensures (run (handsetStep sdk target) events (Handset.boot target storage)) fun result =>
      result.2.device.flow = .idle → result.2.menu ≠ .exited →
      ∃ after, Presses sdk target result.2 after ∧ after.device = result.2.device ∧
        after.storage = result.2.storage.write (UInt8.ofNat value) setting ∧
        (after.menu.both after.storage).1 = .dataSubmenu setting value := by
  rintro ⟨log, device, menu, current⟩ hresult hidle hopen
  have hsane := handset_sane sdk target h events _ hresult
  obtain ⟨idx, hidx, hsettings⟩ := presses_toSettings sdk target current hidle hsane.menu hopen
  have hstored := presses_toValue sdk target current hidle hsane.storage setting hvalue hidx
  refine ⟨_, hsettings.trans hstored, rfl, rfl, ?_⟩
  have hbyte : (UInt8.ofNat value).toNat = value := by
    simp only [UInt8.toNat_ofNat']
    omega
  simp only [Menu.both, settingsSubmenuSelector_option, InternalStorage.read_write, hbyte]

/-- Blind signing can be allowed on a new device. -/
theorem settings_reachable_fresh :
    Ensures (run (handsetStep constantSdk .nanos) [.right, .both]
      (Handset.boot .nanos ⟨0, 0, 0, 0⟩)) fun result =>
      result.2.device.flow = .idle → result.2.menu ≠ .exited →
      ∃ after, Presses constantSdk .nanos result.2 after ∧ after.device = result.2.device ∧
        after.storage = result.2.storage.write (UInt8.ofNat 1) .allowBlindSign ∧
        (after.menu.both after.storage).1 = .dataSubmenu .allowBlindSign 1 :=
  settings_reachable constantSdk .nanos ⟨0, 0, 0, 0⟩ (fun h => absurd h (by decide))
    [.right, .both] .allowBlindSign 1 (by decide)

end Settings

end AelfApp
