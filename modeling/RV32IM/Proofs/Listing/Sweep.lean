import Mathlib
import RV32IM.Listing

-- What a listing of a range shows. There is a line for every four bytes, in order and without
-- wrapping around, up to the first four that are not all found.

namespace RV32IM.Listing

-- Whether each of the four bytes from an address on is found.
def Image.Finds (img : Image) (addr : Word) : Prop :=
  ∀ i < 4, (img.byte? (addr + BitVec.ofNat 32 i)).isSome

-- How many lines a range takes, of which the last may be for fewer than four bytes of it.
def lineCount (first stop : Word) : Nat :=
  (stop.toNat - first.toNat + 3) / 4

-- Whether a line shows the word at its address, the last byte of which is not that of memory.
structure Line.Shows (img : Image) (showBytes : Bool) (l : Line) : Prop where
  limit : l.addr.toNat + 4 < addressLimit
  word  : ∃ b₀ b₁ b₂ b₃, img.byte? l.addr = some b₀ ∧ img.byte? (l.addr + 1) = some b₁ ∧
    img.byte? (l.addr + 2) = some b₂ ∧ img.byte? (l.addr + 3) = some b₃ ∧
    l.text = (Word.ofBytes [b₀, b₁, b₂, b₃]).instrText ∧
    l.bytes = if showBytes then some (bytesText [b₀, b₁, b₂, b₃]) else none

-- Whether lines are those of a range.
structure Sweeps (img : Image) (showBytes : Bool) (first stop : Word) (ls : List Line) : Prop where
  addr  : ∀ k l, ls[k]? = some l → l.addr.toNat = first.toNat + 4 * k ∧ l.addr < stop
  shows : ∀ k l, ls[k]? = some l → k + 1 < ls.length → l.Shows img showBytes
  -- The first word of the range that is not found ends the sweep.
  ends  : ∀ k, first.toNat + 4 * k < stop.toNat →
    (∀ j < k, img.Finds (first + BitVec.ofNat 32 (4 * j))) →
    ¬img.Finds (first + BitVec.ofNat 32 (4 * k)) →
    ls.length = k + 1 ∧ ls[k]? = some ⟨first + BitVec.ofNat 32 (4 * k), none, "<oob>"⟩
  full  : (∀ k, first.toNat + 4 * k < stop.toNat → img.Finds (first + BitVec.ofNat 32 (4 * k))) →
    ls.length = lineCount first stop ∧ ∀ l ∈ ls, l.Shows img showBytes

variable {img : Image} {showBytes : Bool} {first stop addr : Word} {bs : List Byte} {ls : List Line}

theorem Image.finds_iff : img.Finds addr ↔ ∃ bs, img.bytes? addr = some bs := by
  simp only [Finds, Nat.forall_lt_succ_left, Option.isSome_iff_exists, bytes?_eq_some_iff]
  simp

theorem lineCount_add_four (h : first < stop) (hnext : (first + 4).toNat = first.toNat + 4) :
    lineCount first stop = lineCount (first + 4) stop + 1 := by
  rw [BitVec.lt_def] at h
  simp only [lineCount, hnext]
  omega

theorem add_four_add (first : Word) (k : Nat) :
    first + 4 + BitVec.ofNat 32 (4 * k) = first + BitVec.ofNat 32 (4 * (k + 1)) := by
  rw [Nat.mul_succ, Nat.add_comm, BitVec.ofNat_add, BitVec.add_assoc]
  rfl

theorem sweeps_nil (h : ¬first < stop) : Sweeps img showBytes first stop [] where
  addr := nofun
  shows := nofun
  ends k hk := by
    rw [BitVec.lt_def] at h
    omega
  full _ := by
    rw [BitVec.lt_def] at h
    refine ⟨?_, nofun⟩
    simp only [List.length_nil, lineCount]
    omega

theorem sweeps_oob (h : first < stop) (hf : ¬img.Finds first) :
    Sweeps img showBytes first stop [⟨first, none, "<oob>"⟩] where
  addr k l hl := by
    obtain ⟨rfl, rfl⟩ : k = 0 ∧ _ = l := by simpa [List.getElem?_singleton] using hl
    exact ⟨rfl, h⟩
  shows k l _ hk := absurd hk (by simp)
  ends k hk hj hnot := by
    cases k
    case zero => simp
    case succ k => exact absurd (by simpa using hj 0 (Nat.succ_pos k)) hf
  full hall := absurd (by simpa using hall 0 h) hf

-- A line for four bytes that are found, and the lines of what is left of the range.
theorem Sweeps.cons (h : first < stop) (hb : img.bytes? first = some bs)
    (hs : Sweeps img showBytes (first + 4) stop ls) :
    Sweeps img showBytes first stop
      (⟨first, if showBytes then some (bytesText bs) else none, (Word.ofBytes bs).instrText⟩ ::
        ls) := by
  have ⟨hlt, hnext⟩ := Image.toNat_add_four hb
  have hfinds : img.Finds first := Image.finds_iff.mpr ⟨bs, hb⟩
  obtain ⟨b₀, b₁, b₂, b₃, h₀, h₁, h₂, h₃, rfl⟩ := Image.bytes?_eq_some_iff.mp hb
  have hshows :
      Line.Shows img showBytes ⟨first, if showBytes then some (bytesText _) else none, _⟩ :=
    ⟨hlt, b₀, b₁, b₂, b₃, h₀, h₁, h₂, h₃, rfl, rfl⟩
  constructor
  case addr =>
    intro k l hl
    cases k
    case zero =>
      cases hl
      exact ⟨rfl, h⟩
    case succ k =>
      have ⟨ha, hstop⟩ := hs.addr k l hl
      exact ⟨by omega, hstop⟩
  case shows =>
    intro k l hl hk
    cases k
    case zero =>
      cases hl
      exact hshows
    case succ k => exact hs.shows k l hl (Nat.lt_of_succ_lt_succ hk)
  case ends =>
    intro k hk hj hnot
    cases k
    case zero => exact absurd hfinds (by simpa using hnot)
    case succ k =>
      rw [← add_four_add] at hnot ⊢
      have ⟨hlen, hlast⟩ := hs.ends k (by omega)
        (fun j hlt => by simpa only [add_four_add] using hj (j + 1) (Nat.succ_lt_succ hlt)) hnot
      exact ⟨congrArg Nat.succ hlen, hlast⟩
  case full =>
    intro hall
    have ⟨hlen, hrest⟩ := hs.full fun k hk => by
      simpa only [add_four_add] using hall (k + 1) (by omega)
    refine ⟨?_, List.forall_mem_cons.mpr ⟨hshows, hrest⟩⟩
    rw [List.length_cons, hlen, lineCount_add_four h hnext]

-- A listing shows the words of its range in order, up to the first that is not found.
theorem sweeps_lines (img : Image) (showBytes : Bool) (first stop : Word) :
    Sweeps img showBytes first stop (lines img first stop showBytes) := by
  fun_induction lines img first stop showBytes
  case case1 first h hb => exact sweeps_oob h (by simp [Image.finds_iff, hb])
  case case2 first h bs hb ih =>
    -- Four bytes that are found never end where memory does.
    have hzero : first + 4 ≠ 0 := fun hzero => by
      have ⟨_, hnext⟩ := Image.toNat_add_four hb
      rw [hzero] at hnext
      cases hnext
    rw [if_neg hzero]
    exact ih.cons h hb
  case case3 first h => exact sweeps_nil h

-- The last line is for an address from which on only two bytes are found.
example :
    lines ⟨none, [⟨"top", 0xFFFFFFF8, 6, #[0x13, 0, 0, 0, 0x13, 0], .all, .raw⟩]⟩ 0xFFFFFFF8
      0xFFFFFFFF true =
      [⟨0xFFFFFFF8, some "13 00 00 00", "addi x0, x0, 0"⟩, ⟨0xFFFFFFFC, none, "<oob>"⟩] := by
  decide +kernel

end RV32IM.Listing
