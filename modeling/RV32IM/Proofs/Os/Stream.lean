import RV32IM.Proofs.Os.Path
import RV32IM.Proofs.Os.Read

-- An input stream behind one slot of a table. Whatever is asked of the host through other slots, it
-- has given of the stream what it gave to reads from that slot.

namespace RV32IM.Os

variable {η σ : Type}

-- Whether a slot is the only one for a stream, of which the host has given these bytes.
structure Tracks (x : η) (Given : List Byte → σ → Prop) (i : Nat) (c : List Byte) (os : Os η σ) :
    Prop where
  given : Given c os.host
  size  : i < os.handles.size
  slot  : ∀ y, os.handles[i]? = some (some y) → y = x
  other : ∀ j, j ≠ i → os.handles[j]? ≠ some (some x)

namespace Tracks

variable {x y : η} {Given : List Byte → σ → Prop} {i slot : Nat} {c c' : List Byte}
  {os : Os η σ} {host : σ}

theorem update (h : Tracks x Given i c os) (hsame : slot = i → y = x) (hother : slot ≠ i → y ≠ x)
    (hg : Given c' host) : Tracks x Given i c' (os.update slot y host) where
  given := hg
  size := by simpa [Os.update] using h.size
  slot z hz := by
    by_cases hi : slot = i
    case pos =>
      have hy : y = z := by simpa [Os.update, hi, h.size] using hz
      rw [← hy, hsame hi]
    case neg => exact h.slot z (by simpa [Os.update, hi] using hz)
  other j hj hx := by
    have hlt : j < os.handles.size := by
      simpa [Os.update] using (Array.getElem?_eq_some_iff.mp hx).1
    by_cases hslot : slot = j
    case pos => exact hother (hslot ▸ hj) (by simpa [Os.update, hslot, hlt] using hx)
    case neg => exact h.other j hj (by simpa [Os.update, hslot] using hx)

theorem without (h : Tracks x Given i c os) (slot : Nat) :
    Tracks x Given i c (os.without slot) where
  given := h.given
  size := by simpa [Os.without] using h.size
  slot z hz := by
    by_cases hi : slot = i
    case pos => simp [Os.without, hi, h.size] at hz
    case neg => exact h.slot z (by simpa [Os.without, hi] using hz)
  other j hj hx := by
    have hlt : j < os.handles.size := by
      simpa [Os.without] using (Array.getElem?_eq_some_iff.mp hx).1
    by_cases hslot : slot = j
    case pos => simp [Os.without, hslot, hlt] at hx
    case neg => exact h.other j hj (by simpa [Os.without, hslot] using hx)

theorem close (h : Tracks x Given i c os) (number : Word) :
    Tracks x Given i c (os.close number).2 := by
  unfold Os.close
  split
  case h_1 => exact h
  case h_2 slot _ _ => exact h.without slot

theorem opened (h : Tracks x Given i c os) : (answer : Option η × σ) → answer.1 ≠ some x →
    Given c answer.2 → Tracks x Given i c (os.opened answer).2
  | (none, _), _, hg   => ⟨hg, h.size, h.slot, h.other⟩
  | (some y, _), hy, hg => by
    constructor
    case given => exact hg
    case size => simpa [Os.opened] using Nat.lt_succ_of_lt h.size
    case slot =>
      intro z hz
      rw [Os.opened, Array.getElem?_push_lt h.size, ← Array.getElem?_eq_getElem h.size] at hz
      exact h.slot z hz
    case other =>
      intro j hj hx
      rw [Os.opened, Array.getElem?_push] at hx
      split at hx
      case isTrue => exact hy (Option.some.inj hx)
      case isFalse => exact h.other j hj hx

end Tracks

variable [HostInterface η σ]

-- How a host serves an input stream that is behind one handle. `Given` is what it has given of the
-- stream so far.
structure InputStream (x : η) (Given : List Byte → σ → Prop) : Prop where
  read (c : List Byte) (host : σ) (n : Nat) : Given c host →
    let r := HostInterface.read host x n
    r.2.1 = x ∧ Given (c ++ r.1.getD []) r.2.2
  write (c : List Byte) (host : σ) (bs : List Byte) : Given c host →
    let r := HostInterface.write host x bs
    r.2.1 = x ∧ Given c r.2.2
  -- Other handles are for something else, and so is what is opened.
  readOther (c : List Byte) (host : σ) (y : η) (n : Nat) : y ≠ x → Given c host →
    let r := HostInterface.read host y n
    r.2.1 ≠ x ∧ Given c r.2.2
  writeOther (c : List Byte) (host : σ) (y : η) (bs : List Byte) : y ≠ x → Given c host →
    let r := HostInterface.write host y bs
    r.2.1 ≠ x ∧ Given c r.2.2
  openPath (c : List Byte) (host : σ) (path : String) (mode : OpenMode) : Given c host →
    let r : Option η × σ := HostInterface.openPath host path mode
    r.1 ≠ some x ∧ Given c r.2

section Requests

variable {x y : η} {Given : List Byte → σ → Prop} {i slot : Nat} {c : List Byte} {os : Os η σ}
  {space : AddressSpace}

variable (hx : InputStream x Given) (h : Tracks x Given i c os)

include hx h

-- Only a read from its slot takes anything of the stream.
theorem tracks_afterRead_same (hy : os.handles[i]? = some (some y)) (len : Nat) :
    Tracks x Given i (c ++ (HostInterface.read os.host y (min len chunkSize)).1.getD [])
      (os.afterRead i y len) := by
  obtain rfl := h.slot y hy
  have ⟨hsame, hg⟩ := hx.read c os.host (min len chunkSize) h.given
  exact h.update (fun _ => hsame) (absurd rfl) hg

theorem tracks_afterRead_other (hy : os.handles[slot]? = some (some y)) (hne : slot ≠ i)
    (len : Nat) : Tracks x Given i c (os.afterRead slot y len) := by
  have hyx : y ≠ x := fun hyx => h.other slot hne (hyx ▸ hy)
  have ⟨hother, hg⟩ := hx.readOther c os.host y (min len chunkSize) hyx h.given
  exact h.update (fun heq => absurd heq hne) (fun _ => hother) hg

theorem tracks_put (slot : Nat) (bs : List Byte) : Tracks x Given i c (os.put slot bs).2 := by
  unfold put
  split
  case h_1 => exact h
  case h_2 y hy =>
    rw [Option.join_eq_some_iff] at hy
    by_cases hslot : slot = i
    case pos =>
      subst hslot
      obtain rfl := h.slot y hy
      have ⟨hsame, hg⟩ := hx.write c os.host bs h.given
      exact h.update (fun _ => hsame) (absurd rfl) hg
    case neg =>
      have hyx : y ≠ x := fun hyx => h.other slot hslot (hyx ▸ hy)
      have ⟨hother, hg⟩ := hx.writeOther c os.host y bs hyx h.given
      exact h.update (fun heq => absurd heq hslot) (fun _ => hother) hg

theorem tracks_writeFrom (slot : Nat) (addr : Word) (done left : Nat) :
    Tracks x Given i c (os.writeFrom space slot addr done left).2 := by
  fun_induction os.writeFrom space slot addr done left
  case case1 => exact h
  case case2 => exact h
  case case3 bs _ _ hp =>
    have hput := tracks_put hx h slot bs
    rwa [hp] at hput
  case case4 bs _ _ hp ih =>
    have hput := tracks_put hx h slot bs
    rw [hp] at hput
    exact ih hput

theorem tracks_write (number addr : Word) (len : Nat) :
    Tracks x Given i c (os.write space number addr len).2 := by
  unfold write
  split
  case h_1 => exact h
  case h_2 => exact tracks_writeFrom hx h ..

theorem tracks_openFile (addr flags : Word) :
    Tracks x Given i c (os.openFile space addr flags).2 := by
  obtain ⟨mode, path, hm, hn⟩ | ⟨_, hr | ⟨e, hr⟩⟩ := os.openFile_asked space addr flags
  case inl =>
    have ⟨hy, hg⟩ := hx.openPath c os.host path mode h.given
    rw [openFile_of_names hm hn]
    exact h.opened _ hy hg
  all_goals
    rw [hr]
    exact h

end Requests

end RV32IM.Os
