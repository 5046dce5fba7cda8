import Mathlib.Tactic

/-!
The memory a C function works on, as far as verifying one needs it: byte
arrays with checked accesses, unsigned subtraction that reports a wrap, C
strings, and pointers into blocks. An access outside its array or through a
null pointer ends the computation with the `Fault` that C leaves undefined,
so "no fault" is a statement about the code and not a convention. A `Mem`
knows no ends of its blocks, and a read through a pointer into one always
gives a byte: that a pointer with its length stays within the block is not
checked here and has to be shown of the code.
-/

namespace AelfApp.Memory

/-- What a run must not do. `sizeWrap` is defined behaviour in C, but a
length that wrapped below zero is never what the caller meant.
`intOverflow` is a sum that its signed type does not hold, and `endlessLoop`
marks a loop that did not end within its stated bound. -/
inductive Fault where
  | outOfBounds (index : Int) (size : Nat)
  | nullPointer
  | sizeWrap
  | intOverflow
  | endlessLoop
  deriving Repr, DecidableEq

abbrev Checked := Except Fault

section Bind

variable {α β : Type}

@[simp] theorem ok_bind (a : α) (f : α → Checked β) :
    ((Except.ok a : Checked α) >>= f) = f a := rfl

@[simp] theorem error_bind (e : Fault) (f : α → Checked β) :
    ((Except.error e : Checked α) >>= f) = .error e := rfl

@[simp] theorem pure_eq_ok (a : α) : (pure a : Checked α) = .ok a := rfl

/-- A computation that returned had a returning first half. -/
theorem bind_eq_ok {x : Checked α} {f : α → Checked β} {b : β} :
    (x >>= f) = .ok b ↔ ∃ a, x = .ok a ∧ f a = .ok b := by
  cases x <;> simp

/-- Whatever the computation returns satisfies `P`. -/
def Ensures (x : Checked α) (P : α → Prop) : Prop := ∀ a, x = .ok a → P a

theorem ensures_ok {a : α} {P : α → Prop} (h : P a) : Ensures (.ok a) P := by
  rintro _ ⟨⟩
  exact h

theorem Ensures.bind {x : Checked α} {f : α → Checked β} {Q : α → Prop} {P : β → Prop}
    (hx : Ensures x Q) (hf : ∀ a, Q a → Ensures (f a) P) : Ensures (x >>= f) P := by
  intro b hb
  obtain ⟨a, ha, hb⟩ := bind_eq_ok.mp hb
  exact hf a (hx a ha) b hb

/-- Nothing has to be known of the first part. -/
theorem ensures_bind {x : Checked α} {f : α → Checked β} {P : β → Prop}
    (h : ∀ a, Ensures (f a) P) : Ensures (x >>= f) P := by
  intro b hb
  obtain ⟨a, _, hb⟩ := bind_eq_ok.mp hb
  exact h a b hb

end Bind

section Access

variable {α : Type}

/-- `buf[i]` as an rvalue. The index is an `Int`, as C's `int` may be negative. -/
def readAt (buf : List α) (i : Int) : Checked α :=
  match (if 0 ≤ i then buf[i.toNat]? else none) with
  | some a => .ok a
  | none => .error (.outOfBounds i buf.length)

/-- `buf[i] = a`. -/
def writeAt (buf : List α) (i : Int) (a : α) : Checked (List α) :=
  if 0 ≤ i ∧ i < buf.length then .ok (buf.set i.toNat a)
  else .error (.outOfBounds i buf.length)

/-- The `n` elements of `buf` from index `i`, as `memcpy` reads its source. -/
def readBytes (buf : List α) (i : Int) (n : Nat) : Checked (List α) :=
  if 0 ≤ i ∧ i + n ≤ buf.length then .ok ((buf.drop i.toNat).take n)
  else .error (.outOfBounds (i + n) buf.length)

/-- Stores `data` from index `i`, as `memcpy` writes its destination. -/
def writeBytes (buf : List α) (i : Int) (data : List α) : Checked (List α) :=
  if 0 ≤ i ∧ i + data.length ≤ buf.length then
    .ok (buf.take i.toNat ++ data ++ buf.drop (i.toNat + data.length))
  else .error (.outOfBounds (i + data.length) buf.length)

/-- `a - b` on `size_t`. -/
def subSize (a b : Nat) : Checked Nat :=
  if b ≤ a then .ok (a - b) else .error .sizeWrap

theorem readAt_ok {buf : List α} {i : Nat} (h : i < buf.length) :
    readAt buf i = .ok buf[i] := by
  simp [readAt, h]

theorem readAt_append (pre post : List α) (a : α) :
    readAt (pre ++ a :: post) pre.length = .ok a := by
  simp [readAt]

theorem writeAt_append (pre post : List α) (old new : α) :
    writeAt (pre ++ old :: post) pre.length new = .ok (pre ++ new :: post) := by
  have hbound : pre.length < (pre ++ old :: post).length := by simp
  simp [writeAt, -List.length_append, hbound]

theorem writeAt_fault (buf : List α) {i : Int} (a : α) (h : (buf.length : Int) ≤ i) :
    writeAt buf i a = .error (.outOfBounds i buf.length) := by
  have hbound : ¬ (0 ≤ i ∧ i < buf.length) := by omega
  simp [writeAt, hbound]

theorem writeAt_length {buf buf' : List α} {i : Int} {a : α}
    (h : writeAt buf i a = .ok buf') : buf'.length = buf.length := by
  unfold writeAt at h
  split at h
  · cases h
    simp
  · cases h

theorem readBytes_ok {buf : List α} {i n : Nat} (h : i + n ≤ buf.length) :
    readBytes buf i n = .ok ((buf.drop i).take n) := by
  have hbound : 0 ≤ (i : Int) ∧ (i : Int) + n ≤ buf.length := by omega
  simp only [readBytes, hbound, and_self, ↓reduceIte, Int.toNat_natCast]

theorem readBytes_front (pre post : List α) {n : Nat} (h : n ≤ pre.length) :
    readBytes (pre ++ post) 0 n = .ok (pre.take n) := by
  have hbound : 0 + n ≤ (pre ++ post).length := by
    simp only [List.length_append]
    omega
  have hread := readBytes_ok hbound
  rwa [List.drop_zero, List.take_append_of_le_length h] at hread

/-- The last `n` elements before what follows. -/
theorem readBytes_end (pre post : List α) {n : Nat} (h : n ≤ pre.length) :
    readBytes (pre ++ post) ((pre.length : Int) - n) n = .ok (pre.drop (pre.length - n)) := by
  have hbound : pre.length - n + n ≤ (pre ++ post).length := by
    simp only [List.length_append]
    omega
  have hread := readBytes_ok hbound
  have hindex : ((pre.length - n : Nat) : Int) = (pre.length : Int) - n := by omega
  have hlength : (pre.drop (pre.length - n)).length = n := by
    simp only [List.length_drop]
    omega
  rw [hindex, List.drop_append_of_le_length (by omega),
    List.take_append_of_le_length hlength.ge, List.take_of_length_le hlength.le] at hread
  exact hread

theorem writeBytes_append (pre old post data : List α) (h : data.length = old.length) :
    writeBytes (pre ++ old ++ post) pre.length data = .ok (pre ++ data ++ post) := by
  have hbound : 0 ≤ (pre.length : Int) ∧
      (pre.length : Int) + data.length ≤ (pre ++ old ++ post).length := by
    simp only [List.length_append]
    omega
  simp only [writeBytes, hbound, and_self, ↓reduceIte, Int.toNat_natCast, Except.ok.injEq]
  simp [h]

theorem writeBytes_fault (buf data : List α) {i : Int} (h : (buf.length : Int) < i + data.length) :
    writeBytes buf i data = .error (.outOfBounds (i + data.length) buf.length) := by
  have hbound : ¬ (0 ≤ i ∧ i + data.length ≤ buf.length) := by omega
  simp only [writeBytes, hbound, ↓reduceIte]

theorem writeBytes_length {buf buf' data : List α} {i : Int}
    (h : writeBytes buf i data = .ok buf') : buf'.length = buf.length := by
  unfold writeBytes at h
  split at h
  · cases h
    simp only [List.length_append, List.length_take, List.length_drop]
    omega
  · cases h

theorem writeBytes_eq_ok {buf buf' data : List α} {i : Int} :
    writeBytes buf i data = .ok buf' ↔
      0 ≤ i ∧ i + data.length ≤ buf.length ∧
        buf.take i.toNat ++ data ++ buf.drop (i.toNat + data.length) = buf' := by
  unfold writeBytes
  split
  · rename_i h
    simp [h]
  · rename_i h
    simp only [reduceCtorEq, false_iff]
    rintro ⟨hlow, hhigh, _⟩
    exact h ⟨hlow, hhigh⟩

theorem subSize_ok {a b : Nat} (h : b ≤ a) : subSize a b = .ok (a - b) := by
  simp [subSize, h]

end Access

/-- An array object of `n` elements. -/
structure Buffer (α : Type) (n : Nat) where
  toList : List α
  length_eq : toList.length = n
  deriving DecidableEq

namespace Buffer

variable {α : Type} {n : Nat}

theorem ext {x y : Buffer α n} (h : x.toList = y.toList) : x = y := by
  cases x
  cases y
  simpa using h

/-- What `explicit_bzero` leaves, for the element type's zero. -/
def replicate (n : Nat) (zero : α) : Buffer α n := ⟨List.replicate n zero, by simp⟩

def writeAt (buf : Buffer α n) (i : Int) (a : α) : Checked (Buffer α n) :=
  match h : Memory.writeAt buf.toList i a with
  | .ok toList => .ok ⟨toList, (writeAt_length h).trans buf.length_eq⟩
  | .error e => .error e

def writeBytes (buf : Buffer α n) (i : Int) (data : List α) : Checked (Buffer α n) :=
  match h : Memory.writeBytes buf.toList i data with
  | .ok toList => .ok ⟨toList, (writeBytes_length h).trans buf.length_eq⟩
  | .error e => .error e

theorem writeAt_ok {buf : Buffer α n} {i : Int} {a : α} {toList : List α}
    (h : Memory.writeAt buf.toList i a = .ok toList) :
    ∃ buf', buf.writeAt i a = .ok buf' ∧ buf'.toList = toList := by
  unfold writeAt
  split
  · rename_i found hfound
    cases h.symm.trans hfound
    exact ⟨_, rfl, rfl⟩
  · rename_i hfound
    cases h.symm.trans hfound

theorem writeBytes_ok {buf : Buffer α n} {i : Int} {data toList : List α}
    (h : Memory.writeBytes buf.toList i data = .ok toList) :
    ∃ buf', buf.writeBytes i data = .ok buf' ∧ buf'.toList = toList := by
  unfold writeBytes
  split
  · rename_i found hfound
    cases h.symm.trans hfound
    exact ⟨_, rfl, rfl⟩
  · rename_i hfound
    cases h.symm.trans hfound

theorem writeBytes_eq_ok {buf buf' : Buffer α n} {i : Int} {data : List α}
    (h : buf.writeBytes i data = .ok buf') :
    Memory.writeBytes buf.toList i data = .ok buf'.toList := by
  unfold writeBytes at h
  split at h
  · rename_i toList hwrite
    cases h
    exact hwrite
  · cases h

/-- A function that fills an array in place. -/
def fill {γ : Type} (buf : Buffer α n) (f : List α → Checked (γ × List α))
    (hf : Ensures (f buf.toList) fun result => result.2.length = n) : Checked (γ × Buffer α n) :=
  match h : f buf.toList with
  | .ok result => .ok (result.1, ⟨result.2, hf result h⟩)
  | .error e => .error e

theorem fill_ok {γ : Type} (buf : Buffer α n) {f : List α → Checked (γ × List α)}
    (hf : Ensures (f buf.toList) fun result => result.2.length = n) {c : γ} {toList : List α}
    (h : f buf.toList = .ok (c, toList)) :
    ∃ buf', buf.fill f hf = .ok (c, buf') ∧ buf'.toList = toList := by
  unfold fill
  split
  · rename_i found hfound
    cases h.symm.trans hfound
    exact ⟨_, rfl, rfl⟩
  · rename_i hfound
    cases h.symm.trans hfound

theorem fill_error {γ : Type} {buf : Buffer α n} {f : List α → Checked (γ × List α)}
    {hf : Ensures (f buf.toList) fun result => result.2.length = n} {e : Fault}
    (h : f buf.toList = .error e) : buf.fill f hf = .error e := by
  unfold fill
  split
  · rename_i hfound
    cases h.symm.trans hfound
  · rename_i hfound
    cases h.symm.trans hfound
    rfl

/-- An array that holds `filled` and is zero after it. -/
def padded (n : Nat) (zero : α) (filled : List α) : Buffer α n :=
  ⟨(filled ++ List.replicate n zero).take n, by simp⟩

section Padded

variable {zero : α} {filled : List α}

theorem padded_nil : padded n zero [] = replicate n zero := by
  apply ext
  simp [padded, replicate]

theorem padded_toList (h : filled.length ≤ n) :
    (padded n zero filled).toList = filled ++ List.replicate (n - filled.length) zero := by
  simp only [padded, List.take_append, List.take_of_length_le h, List.take_replicate]
  congr 2
  omega

theorem padded_take (h : filled.length ≤ n) :
    (padded n zero filled).toList.take filled.length = filled := by
  simp [padded_toList h]

/-- Writing behind what is filled fills it further. -/
theorem padded_writeBytes (data : List α) (h : filled.length + data.length ≤ n) :
    (padded n zero filled).writeBytes filled.length data =
      .ok (padded n zero (filled ++ data)) := by
  obtain ⟨k, hk⟩ := Nat.exists_eq_add_of_le h
  have hold : (padded n zero filled).toList =
      filled ++ List.replicate data.length zero ++ List.replicate k zero := by
    rw [padded_toList (by omega), List.append_assoc, List.replicate_append_replicate]
    congr 2
    omega
  have hnew : (padded n zero (filled ++ data)).toList =
      filled ++ data ++ List.replicate k zero := by
    rw [padded_toList (by simpa using h)]
    congr 2
    simp only [List.length_append]
    omega
  have hwrite := writeBytes_append filled (List.replicate data.length zero)
    (List.replicate k zero) data (by simp)
  rw [← hold, ← hnew] at hwrite
  obtain ⟨buf, hbuf, hlist⟩ := writeBytes_ok hwrite
  rw [hbuf, ext hlist]

theorem padded_writeAt (a : α) (h : filled.length < n) :
    (padded n zero filled).writeAt filled.length a = .ok (padded n zero (filled ++ [a])) := by
  obtain ⟨k, hk⟩ := Nat.exists_eq_add_of_lt h
  have hold : (padded n zero filled).toList = filled ++ zero :: List.replicate k zero := by
    rw [padded_toList (by omega), ← List.replicate_succ]
    congr 2
    omega
  have hnew : (padded n zero (filled ++ [a])).toList = filled ++ a :: List.replicate k zero := by
    rw [padded_toList (by simpa using h)]
    simp only [List.length_append, List.length_singleton, List.append_assoc, List.singleton_append]
    congr 3
    omega
  have hwrite := writeAt_append filled (List.replicate k zero) zero a
  rw [← hold, ← hnew] at hwrite
  obtain ⟨buf, hbuf, hlist⟩ := writeAt_ok hwrite
  rw [hbuf, ext hlist]

end Padded

end Buffer

section Strings

/-- The text a reader of a C string sees: everything before the first NUL. -/
def cString : List UInt8 → List UInt8
  | [] => []
  | c :: rest => if c = 0 then [] else c :: cString rest

/-- The bytes of an ASCII literal. -/
def ascii (s : String) : List UInt8 := s.toList.map fun c => c.toNat.toUInt8

/-- What `strncpy(dst, src, n)` stores: the C string `src`, cut at `n` bytes
and padded with NULs to `n`. -/
def strncpyBytes (src : List UInt8) (n : Nat) : List UInt8 :=
  (cString src).take n ++ List.replicate (n - (cString src).length) 0

theorem strncpyBytes_length (src : List UInt8) (n : Nat) :
    (strncpyBytes src n).length = n := by
  simp only [strncpyBytes, List.length_append, List.length_take, List.length_replicate]
  omega

@[simp] theorem cString_nul (rest : List UInt8) : cString (0 :: rest) = [] := rfl

theorem cString_cons {c : UInt8} (rest : List UInt8) (h : c ≠ 0) :
    cString (c :: rest) = c :: cString rest := by
  simp [cString, h]

theorem cString_append (text rest : List UInt8) (h : ∀ c ∈ text, c ≠ 0) :
    cString (text ++ rest) = text ++ cString rest := by
  induction text with
  | nil => rfl
  | cons c text ih =>
      rw [List.cons_append, cString_cons _ (h c (by simp)),
        ih (fun d hd => h d (by simp [hd])), List.cons_append]

theorem cString_append_nul (text rest : List UInt8) (h : ∀ c ∈ text, c ≠ 0) :
    cString (text ++ 0 :: rest) = text := by
  simp [cString_append text _ h]

/-- Nothing behind a NUL is seen. -/
theorem cString_append_self (text rest : List UInt8) :
    cString (text ++ 0 :: rest) = cString text := by
  induction text with
  | nil => rfl
  | cons c text ih =>
      by_cases hc : c = 0
      · simp [hc]
      · rw [List.cons_append, cString_cons _ hc, cString_cons _ hc, ih]

theorem cString_of_noNul (text : List UInt8) (h : ∀ c ∈ text, c ≠ 0) :
    cString text = text := by
  simpa [cString] using cString_append text [] h

theorem cString_noNul (buf : List UInt8) : ∀ c ∈ cString buf, c ≠ 0 := by
  induction buf with
  | nil => simp [cString]
  | cons c buf ih =>
      by_cases hc : c = 0
      · simp [cString, hc]
      · simpa [cString, hc] using ih

/-- The characters of a string literal. The terminator is not one of them. -/
structure CString where
  chars : List UInt8
  noNul : ∀ c ∈ chars, c ≠ 0
  deriving DecidableEq

def CString.lit (s : String) : CString := ⟨cString (ascii s), cString_noNul _⟩

end Strings

/-- A C pointer: a block of the program's memory and an offset in it. -/
structure Ptr (β : Type) where
  block : β
  offset : Nat
  deriving Repr, DecidableEq

/-- The contents of every block, without its bounds. -/
abbrev Mem (β : Type) := β → Nat → UInt8

namespace Ptr

variable {β : Type}

def add (p : Ptr β) (n : Nat) : Ptr β := { p with offset := p.offset + n }

@[simp] theorem add_block (p : Ptr β) (n : Nat) : (p.add n).block = p.block := rfl

@[simp] theorem add_offset (p : Ptr β) (n : Nat) : (p.add n).offset = p.offset + n := rfl

@[simp] theorem add_zero (p : Ptr β) : p.add 0 = p := rfl

@[simp] theorem add_add (p : Ptr β) (m n : Nat) : (p.add m).add n = p.add (m + n) := by
  simp [add, Nat.add_assoc]

end Ptr

namespace Mem

variable {β : Type}

/-- `*p`. -/
def load (mem : Mem β) (p : Ptr β) : UInt8 := mem p.block p.offset

/-- The `n` bytes from `p` on. -/
def bytes (mem : Mem β) (p : Ptr β) : Nat → List UInt8
  | 0 => []
  | n + 1 => mem.load p :: bytes mem (p.add 1) n

/-- `n` bytes read through a pointer that may be null. -/
def loadBytes (mem : Mem β) : Option (Ptr β) → Nat → Checked (List UInt8)
  | some p, n => .ok (mem.bytes p n)
  | none, 0 => .ok []
  | none, _ + 1 => .error .nullPointer

@[simp] theorem bytes_length (mem : Mem β) (p : Ptr β) (n : Nat) :
    (mem.bytes p n).length = n := by
  induction n generalizing p with
  | zero => rfl
  | succ n ih => simp [bytes, ih]

theorem loadBytes_length {mem : Mem β} {p : Option (Ptr β)} {n : Nat} {data : List UInt8}
    (h : mem.loadBytes p n = .ok data) : data.length = n := by
  match p, n with
  | some p, n =>
      cases h
      exact bytes_length mem p n
  | none, 0 =>
      cases h
      rfl
  | none, n + 1 => cases h

theorem bytes_add (mem : Mem β) (p : Ptr β) (m n : Nat) :
    mem.bytes p (m + n) = mem.bytes p m ++ mem.bytes (p.add m) n := by
  induction m generalizing p with
  | zero => simp [bytes]
  | succ m ih =>
      have hsucc : m + 1 + n = (m + n) + 1 := by omega
      rw [hsucc]
      simp only [bytes, ih (p.add 1), List.cons_append, Ptr.add_add, Nat.add_comm 1 m]

/-- The bytes from `p + m` on are what is left after dropping `m`. -/
theorem bytes_drop (mem : Mem β) (p : Ptr β) {m n : Nat} (h : m ≤ n) :
    (mem.bytes p n).drop m = mem.bytes (p.add m) (n - m) := by
  obtain ⟨k, rfl⟩ := Nat.exists_eq_add_of_le h
  rw [bytes_add]
  simp

theorem bytes_take (mem : Mem β) (p : Ptr β) {m n : Nat} (h : m ≤ n) :
    (mem.bytes p n).take m = mem.bytes p m := by
  obtain ⟨k, rfl⟩ := Nat.exists_eq_add_of_le h
  rw [bytes_add]
  simp

/-- A block that holds an array, and anything behind it. -/
theorem bytes_of_block {mem : Mem β} {block : β} {array : List UInt8}
    (hblock : ∀ i, mem block i = array.getD i 0) {offset n : Nat}
    (h : offset + n ≤ array.length) : mem.bytes ⟨block, offset⟩ n = (array.drop offset).take n := by
  induction n generalizing offset with
  | zero => simp [bytes]
  | succ n ih =>
      have hlt : offset < array.length := by omega
      have hload : mem.load ⟨block, offset⟩ = array[offset] := by
        simp [load, hblock, hlt]
      rw [List.drop_eq_getElem_cons hlt, List.take_succ_cons, ← ih (by omega), bytes, hload]
      rfl

/-- A memory whose one block holds `contents`. -/
def ofBytes (contents : List UInt8) : Mem Unit := fun _ i => contents.getD i 0

theorem bytes_ofBytes (pre contents post : List UInt8) :
    (ofBytes (pre ++ contents ++ post)).bytes ⟨(), pre.length⟩ contents.length = contents := by
  induction contents generalizing pre with
  | nil => rfl
  | cons c contents ih =>
      have hload : (ofBytes (pre ++ (c :: contents) ++ post)).load ⟨(), pre.length⟩ = c := by
        simp [load, ofBytes]
      have htail := ih (pre ++ [c])
      simp only [List.length_append, List.length_singleton, List.append_assoc,
        List.singleton_append] at htail
      simp only [List.length_cons, bytes, hload, List.cons.injEq, true_and]
      simpa [Ptr.add] using htail

end Mem

end AelfApp.Memory
