import RV32IM.Proofs.Memory.Bytes
import RV32IM.Proofs.Os.Handles
import RV32IM.Proofs.Text.Utf8

-- Paths that a program asks to open. A path ends at the first zero byte, which is found within a
-- limit or not at all, and the host gets to see it only if it was read to its end.

namespace RV32IM.Os

variable {β : Type} [Bus β] {bus bus' : β} {addr flags : Word} {limit n : Nat} {bs : List Byte}
  {b : Byte} {e : MemoryError}

section Scan

-- Whether the next `n` bytes can be read and none of them is zero.
def Runs (bus : β) (addr : Word) (n : Nat) : Prop :=
  ∀ i < n, ∃ b, Bus.readByte bus (addr + BitVec.ofNat 32 i) = .ok b ∧ b ≠ 0

-- Whether bytes that are not zero stand in memory where they can be read, and a zero after them.
structure Terminated (bus : β) (addr : Word) (bs : List Byte) : Prop where
  bytes : ∀ i b, bs[i]? = some b → Bus.readByte bus (addr + BitVec.ofNat 32 i) = .ok b ∧ b ≠ 0
  zero  : Bus.readByte bus (addr + BitVec.ofNat 32 bs.length) = .ok 0

theorem runs_succ :
    Runs bus addr (n + 1) ↔
      (∃ b, Bus.readByte bus addr = .ok b ∧ b ≠ 0) ∧ Runs bus (addr + 1) n := by
  simp only [Runs, Nat.forall_lt_succ_left, Word.add_one_add_ofNat]
  simp

theorem terminated_nil : Terminated bus addr [] ↔ Bus.readByte bus addr = .ok 0 := by
  constructor
  case mp  => exact fun h => by simpa using h.zero
  case mpr => exact fun h => ⟨nofun, by simpa using h⟩

theorem terminated_cons :
    Terminated bus addr (b :: bs) ↔
      (Bus.readByte bus addr = .ok b ∧ b ≠ 0) ∧ Terminated bus (addr + 1) bs := by
  constructor
  case mp =>
    intro h
    have hzero := h.zero
    rw [List.length_cons, ← Word.add_one_add_ofNat] at hzero
    refine ⟨by simpa using h.bytes 0 b rfl, fun i c hc => ?_, hzero⟩
    rw [Word.add_one_add_ofNat]
    exact h.bytes (i + 1) c hc
  case mpr =>
    intro ⟨hb, h⟩
    refine ⟨fun i c hc => ?_, ?_⟩
    case refine_1 =>
      cases i
      case zero =>
        cases hc
        simpa using hb
      case succ i => simpa only [Word.add_one_add_ofNat] using h.bytes i c hc
    case refine_2 =>
      rw [List.length_cons, ← Word.add_one_add_ofNat]
      exact h.zero

theorem path?_of_error (h : Bus.readByte bus addr = .error e) :
    path? bus addr (limit + 1) = .error e := by
  rw [path?, h]

theorem path?_of_zero (h : Bus.readByte bus addr = .ok 0) :
    path? bus addr (limit + 1) = .ok (some []) := by
  rw [path?, h]
  rfl

theorem path?_of_ne_zero (h : Bus.readByte bus addr = .ok b) (hb : b ≠ 0) :
    path? bus addr (limit + 1) =
      (path? bus (addr + 1) limit).map fun rest => rest.map (b :: ·) := by
  simp only [path?, h, if_neg hb]

-- What looking for the end of a path can come to.
inductive Scans (bus : β) (addr : Word) (limit : Nat) :
    Except MemoryError (Option (List Byte)) → Prop
  | ended {bs : List Byte} (hlt : bs.length < limit) (h : Terminated bus addr bs) :
    Scans bus addr limit (.ok (some bs))
  | endless (h : Runs bus addr limit) : Scans bus addr limit (.ok none)
  -- The first byte that cannot be read.
  | fault {n : Nat} {e : MemoryError} (hlt : n < limit) (h : Runs bus addr n)
      (he : Bus.readByte bus (addr + BitVec.ofNat 32 n) = .error e) :
    Scans bus addr limit (.error e)

theorem scans_path? (bus : β) (addr : Word) (limit : Nat) :
    Scans bus addr limit (path? bus addr limit) := by
  induction limit generalizing addr
  case zero => exact .endless nofun
  case succ limit ih =>
    cases h : Bus.readByte bus addr
    case error e =>
      rw [path?_of_error h]
      exact .fault (Nat.succ_pos limit) nofun (by simpa using h)
    case ok b =>
    by_cases hb : b = 0
    case pos =>
      subst hb
      rw [path?_of_zero h]
      exact .ended (Nat.succ_pos limit) (terminated_nil.mpr h)
    case neg =>
      have hrest := ih (addr + 1)
      rw [path?_of_ne_zero h hb]
      generalize path? bus (addr + 1) limit = r at hrest
      cases hrest
      case ended hlt ht => exact .ended (Nat.succ_lt_succ hlt) (terminated_cons.mpr ⟨⟨h, hb⟩, ht⟩)
      case endless hr => exact .endless (runs_succ.mpr ⟨⟨b, h, hb⟩, hr⟩)
      case fault hlt hr he =>
        rw [Word.add_one_add_ofNat] at he
        exact .fault (Nat.succ_lt_succ hlt) (runs_succ.mpr ⟨⟨b, h, hb⟩, hr⟩) he

theorem path?_of_terminated (hlt : bs.length < limit) (h : Terminated bus addr bs) :
    path? bus addr limit = .ok (some bs) := by
  induction limit generalizing addr bs
  case zero => cases hlt
  case succ limit ih =>
    cases bs
    case nil => exact path?_of_zero (terminated_nil.mp h)
    case cons b bs =>
      have ⟨⟨hl, hb⟩, ht⟩ := terminated_cons.mp h
      rw [path?_of_ne_zero hl hb, ih (Nat.lt_of_succ_lt_succ hlt) ht]
      rfl

theorem path?_of_runs (hlt : n < limit) (h : Runs bus addr n)
    (he : Bus.readByte bus (addr + BitVec.ofNat 32 n) = .error e) :
    path? bus addr limit = .error e := by
  induction limit generalizing addr n
  case zero => cases hlt
  case succ limit ih =>
    cases n
    case zero => exact path?_of_error (by simpa using he)
    case succ n =>
      have ⟨⟨b, hl, hb⟩, hr⟩ := runs_succ.mp h
      rw [← Word.add_one_add_ofNat] at he
      rw [path?_of_ne_zero hl hb, ih (Nat.lt_of_succ_lt_succ hlt) hr he]
      rfl

theorem path?_eq_some_iff :
    path? bus addr limit = .ok (some bs) ↔ bs.length < limit ∧ Terminated bus addr bs := by
  constructor
  case mp =>
    intro hp
    have h := scans_path? bus addr limit
    rw [hp] at h
    cases h with
    | ended hlt h => exact ⟨hlt, h⟩
  case mpr => exact fun ⟨hlt, h⟩ => path?_of_terminated hlt h

theorem path?_eq_error_iff :
    path? bus addr limit = .error e ↔
      ∃ n < limit, Runs bus addr n ∧ Bus.readByte bus (addr + BitVec.ofNat 32 n) = .error e := by
  constructor
  case mp =>
    intro hp
    have h := scans_path? bus addr limit
    rw [hp] at h
    cases h with
    | fault hlt h he => exact ⟨_, hlt, h, he⟩
  case mpr => exact fun ⟨_, hlt, h, he⟩ => path?_of_runs hlt h he

-- No byte past the limit matters.
theorem path?_congr
    (h : ∀ i < limit, Bus.readByte bus' (addr + BitVec.ofNat 32 i) =
      Bus.readByte bus (addr + BitVec.ofNat 32 i)) :
    path? bus' addr limit = path? bus addr limit := by
  induction limit generalizing addr
  case zero => rfl
  case succ limit ih =>
    rw [Nat.forall_lt_succ_left] at h
    simp only [← Word.add_one_add_ofNat] at h
    have hone : Bus.readByte bus' addr = Bus.readByte bus addr := by simpa using h.left
    simp only [path?, ih h.right, hone]

end Scan

variable {η σ : Type} {os : Os η σ} {mode : OpenMode} {path : String}

-- Whether a path stands in memory with a zero after it, within the limit on paths.
def Names (bus : β) (addr : Word) (path : String) : Prop :=
  (Utf8.ofString path).length < Directory.pathLimit ∧
    Terminated bus addr (Utf8.ofString path)

-- What the answer of the host to a path gives the program.
def opened (os : Os η σ) : Option η × σ → Except MemoryError Word × Os η σ
  | (none, host) => (.ok (-1), { os with host })
  | (some handle, host) =>
    (.ok (BitVec.ofNat 32 os.handles.size), ⟨os.handles.push (some handle), host⟩)

theorem names_iff :
    Names bus addr path ↔ ∃ bs, path? bus addr Directory.pathLimit = .ok (some bs) ∧
      Utf8.decode bs = .ok path.toList := by
  simp only [path?_eq_some_iff, Utf8.decode_eq_ok_iff, Names, Utf8.ofString]
  constructor
  case mp  => exact fun h => ⟨_, h, rfl⟩
  case mpr =>
    rintro ⟨_, h, rfl⟩
    exact h

theorem host_opened (os : Os η σ) : (answer : Option η × σ) → (os.opened answer).2.host = answer.2
  | (none, _)   => rfl
  | (some _, _) => rfl

variable [HostInterface η σ]

-- When a request to open a file gets to the host.
structure Asks (os : Os η σ) (bus : β) (addr flags : Word) : Prop where
  unknown : OpenMode.ofFlags? flags = none → os.openFile bus addr flags = (.ok (-1), os)
  handed : ∀ mode path, OpenMode.ofFlags? flags = some mode → Names bus addr path →
    os.openFile bus addr flags = os.opened (HostInterface.openPath os.host path mode)
  withheld : (¬∃ path, Names bus addr path) →
    os.openFile bus addr flags = (.ok (-1), os) ∨
      ∃ e, os.openFile bus addr flags = (.error e, os)
  -- A host that records what it is asked to open is asked once or not at all.
  recorded : ∀ record : σ → List (String × OpenMode),
    (∀ host path mode, record (HostInterface.openPath (η := η) host path mode).2 =
      record host ++ [(path, mode)]) →
    ∀ path mode, record (os.openFile bus addr flags).2.host = record os.host ++ [(path, mode)] ↔
      OpenMode.ofFlags? flags = some mode ∧ Names bus addr path
  -- The first byte that cannot be read is at fault, unless a zero stands before it.
  fault : ∀ e, (os.openFile bus addr flags).1 = .error e ↔
    (OpenMode.ofFlags? flags).isSome ∧ ∃ n < Directory.pathLimit, Runs bus addr n ∧
      Bus.readByte bus (addr + BitVec.ofNat 32 n) = .error e
  -- Nothing is read but the bytes up to the limit.
  bounded : ∀ bus' : β, (∀ i < Directory.pathLimit,
      Bus.readByte bus' (addr + BitVec.ofNat 32 i) = Bus.readByte bus (addr + BitVec.ofNat 32 i)) →
    os.openFile bus' addr flags = os.openFile bus addr flags

theorem openFile_of_unknown (h : OpenMode.ofFlags? flags = none) :
    os.openFile bus addr flags = (.ok (-1), os) := by
  simp only [openFile, h]

theorem openFile_of_names (hm : OpenMode.ofFlags? flags = some mode) (h : Names bus addr path) :
    os.openFile bus addr flags = os.opened (HostInterface.openPath os.host path mode) := by
  obtain ⟨bs, hp, hd⟩ := names_iff.mp h
  simp only [openFile, hm, hp, hd, String.ofList_toList]
  rfl

theorem openFile_of_error (hm : OpenMode.ofFlags? flags = some mode)
    (h : path? bus addr Directory.pathLimit = .error e) :
    os.openFile bus addr flags = (.error e, os) := by
  simp only [openFile, hm, h]

theorem exists_openFile_eq_ok (os : Os η σ) (flags : Word) {r : Option (List Byte)}
    (h : path? bus addr Directory.pathLimit = .ok r) :
    ∃ w, (os.openFile bus addr flags).1 = .ok w := by
  unfold openFile
  rw [h]
  split
  case h_1 => exact ⟨_, rfl⟩
  case h_2 =>
  cases r
  case none => exact ⟨_, rfl⟩
  case some bs =>
  dsimp only
  split
  case h_1 => exact ⟨_, rfl⟩
  case h_2 => split <;> exact ⟨_, rfl⟩

theorem openFile_of_not_names (hp : ∀ e, path? bus addr Directory.pathLimit ≠ .error e)
    (h : ¬∃ path, Names bus addr path) : os.openFile bus addr flags = (.ok (-1), os) := by
  unfold openFile
  split
  case h_1 => rfl
  case h_2 =>
  split
  case h_1 e he => exact absurd he (hp e)
  case h_2 => rfl
  case h_3 bs hb =>
  split
  case h_1 => rfl
  case h_2 cs hd =>
    refine absurd ⟨String.ofList cs, names_iff.mpr ⟨bs, hb, ?_⟩⟩ h
    rw [hd, String.toList_ofList]

-- A request to open a file asks the host for one path, or leaves the host and the handles as they
-- were.
theorem openFile_asked (os : Os η σ) (bus : β) (addr flags : Word) :
    (∃ mode path, OpenMode.ofFlags? flags = some mode ∧ Names bus addr path) ∨
      (¬∃ mode path, OpenMode.ofFlags? flags = some mode ∧ Names bus addr path) ∧
        (os.openFile bus addr flags = (.ok (-1), os) ∨
          ∃ e, os.openFile bus addr flags = (.error e, os)) := by
  cases hm : OpenMode.ofFlags? flags
  case none => exact .inr ⟨by simp, .inl (openFile_of_unknown hm)⟩
  case some mode =>
  by_cases h : ∃ path, Names bus addr path
  case pos =>
    obtain ⟨path, h⟩ := h
    exact .inl ⟨mode, path, rfl, h⟩
  case neg =>
    refine .inr ⟨fun ⟨_, path, _, hn⟩ => h ⟨path, hn⟩, ?_⟩
    by_cases hp : ∃ e, path? bus addr Directory.pathLimit = .error e
    case pos =>
      obtain ⟨e, hp⟩ := hp
      exact .inr ⟨e, openFile_of_error hm hp⟩
    case neg => exact .inl (openFile_of_not_names (not_exists.mp hp) h)

theorem record_openFile_iff {record : σ → List (String × OpenMode)}
    (hrec : ∀ host path mode, record (HostInterface.openPath (η := η) host path mode).2 =
      record host ++ [(path, mode)]) :
    record (os.openFile bus addr flags).2.host = record os.host ++ [(path, mode)] ↔
      OpenMode.ofFlags? flags = some mode ∧ Names bus addr path := by
  constructor
  case mp =>
    intro h
    obtain ⟨mode', path', hm, hn⟩ | ⟨_, hr | ⟨e, hr⟩⟩ := os.openFile_asked bus addr flags
    case inl =>
      rw [openFile_of_names hm hn, host_opened, hrec] at h
      cases List.append_cancel_left h
      exact ⟨hm, hn⟩
    all_goals
      rw [hr] at h
      simp at h
  case mpr =>
    intro ⟨hm, hn⟩
    rw [openFile_of_names hm hn, host_opened, hrec]

theorem fst_openFile_eq_error_iff :
    (os.openFile bus addr flags).1 = .error e ↔
      (OpenMode.ofFlags? flags).isSome ∧ path? bus addr Directory.pathLimit = .error e := by
  constructor
  case mp =>
    intro h
    cases hm : OpenMode.ofFlags? flags
    case none =>
      rw [openFile_of_unknown hm] at h
      cases h
    case some mode =>
    cases hp : path? bus addr Directory.pathLimit
    case error =>
      rw [openFile_of_error hm hp] at h
      cases h
      exact ⟨rfl, rfl⟩
    case ok =>
      obtain ⟨w, hw⟩ := os.exists_openFile_eq_ok flags hp
      cases hw.symm.trans h
  case mpr =>
    intro ⟨hm, hp⟩
    obtain ⟨mode, hm⟩ := Option.isSome_iff_exists.mp hm
    rw [openFile_of_error hm hp]

theorem asks (os : Os η σ) (bus : β) (addr flags : Word) :
    os.Asks bus addr flags where
  unknown := openFile_of_unknown
  handed _ _ := openFile_of_names
  withheld h := by
    obtain ⟨_, path, _, hn⟩ | ⟨_, hr⟩ := os.openFile_asked bus addr flags
    case inl => exact absurd ⟨path, hn⟩ h
    case inr => exact hr
  recorded _ hrec _ _ := record_openFile_iff hrec
  fault e := by
    rw [← path?_eq_error_iff]
    exact fst_openFile_eq_error_iff
  bounded bus' h := by simp only [openFile, path?_congr h]

end RV32IM.Os
