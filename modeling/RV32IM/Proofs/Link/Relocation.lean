import RV32IM.Proofs.Link.Placement
import RV32IM.Proofs.Session.Growth

-- Linking as a pass over fragments. Each word that waits for a symbol is replaced on its own, and
-- everything else in the image stays as it was assembled.

namespace RV32IM

namespace Fragment

variable (symbols : SymbolTable) (relocs : Array Relocation)

-- The bytes of a fragment at `site` in the linked image. A word that cannot be resolved is kept.
def linked (site : Word) : Fragment → List Byte
  | fixed bs => bs
  | pending kind target w =>
    match Relocation.patch ⟨site, kind, target⟩ symbols relocs w with
    | .ok w => w.toBytes
    | .error _ => w.toBytes

-- Why a fragment at `site` cannot be resolved.
def faults (site : Word) : Fragment → List Diagnostic
  | fixed _ => []
  | pending kind target w =>
    match Relocation.patch ⟨site, kind, target⟩ symbols relocs w with
    | .ok _ => []
    | .error d => [d]

-- The linked image of fragments of which the first is at `site`.
def linkedImage : Word → List Fragment → List Byte
  | _, [] => []
  | site, f :: fs => f.linked symbols relocs site ++ linkedImage (f.after site) fs

def allFaults : Word → List Fragment → List Diagnostic
  | _, [] => []
  | site, f :: fs => f.faults symbols relocs site ++ allFaults (f.after site) fs

variable {symbols relocs}

theorem length_linked (site : Word) (f : Fragment) :
    (f.linked symbols relocs site).length = f.bytes.length := by
  cases f
  case fixed => rfl
  case pending =>
    rw [linked]
    split <;> simp [bytes]

theorem length_linkedImage (site : Word) (fs : List Fragment) :
    (linkedImage symbols relocs site fs).length = (image fs).length := by
  induction fs generalizing site
  case nil => rfl
  case cons f fs ih => simp [linkedImage, length_linked, ih]

theorem relocations_cons (site : Word) (f : Fragment) (fs : List Fragment) :
    relocations site (f :: fs) = relocations site [f] ++ relocations (f.after site) fs := by
  cases f <;> rfl

theorem after_add (site : Word) (f : Fragment) (fs : List Fragment) :
    f.after site + BitVec.ofNat 32 (image fs).length =
      site + BitVec.ofNat 32 (image (f :: fs)).length := by
  rw [after, image_cons, List.length_append, BitVec.ofNat_add, BitVec.add_assoc]

theorem linkedImage_append (site : Word) (fs gs : List Fragment) :
    linkedImage symbols relocs site (fs ++ gs) =
      linkedImage symbols relocs site fs ++
        linkedImage symbols relocs (site + BitVec.ofNat 32 (image fs).length) gs := by
  induction fs generalizing site
  case nil => simp [linkedImage]
  case cons f fs ih => simp only [List.cons_append, linkedImage, ih, after_add, List.append_assoc]

theorem allFaults_append (site : Word) (fs gs : List Fragment) :
    allFaults symbols relocs site (fs ++ gs) =
      allFaults symbols relocs site fs ++
        allFaults symbols relocs (site + BitVec.ofNat 32 (image fs).length) gs := by
  induction fs generalizing site
  case nil => simp [allFaults]
  case cons f fs ih => simp only [List.cons_append, allFaults, ih, after_add, List.append_assoc]

end Fragment

namespace Linked

variable {base : Word} {access : Access} {a c : List Byte}

-- What relocation leaves alone.
structure Keeps (l l' : Linked) : Prop where
  base     : l'.base = l.base
  imageLen : l'.imageLen = l.imageLen
  symbols  : l'.symbols = l.symbols

theorem keeps_relocate (relocs : Array Relocation) (l : Linked) (r : Relocation) :
    l.Keeps (l.relocate relocs r) := by
  unfold relocate
  split
  case h_1 => exact ⟨rfl, rfl, rfl⟩
  case h_2 => split <;> exact ⟨rfl, rfl, rfl⟩

theorem Keeps.trans {l₁ l₂ l₃ : Linked} (h : l₁.Keeps l₂) (h' : l₂.Keeps l₃) : l₁.Keeps l₃ :=
  ⟨h'.base.trans h.base, h'.imageLen.trans h.imageLen, h'.symbols.trans h.symbols⟩

theorem keeps_foldl (relocs : Array Relocation) (rs : List Relocation) (l : Linked) :
    l.Keeps (rs.foldl (relocate relocs) l) := by
  induction rs generalizing l
  case nil => exact ⟨rfl, rfl, rfl⟩
  case cons r rs ih => exact (keeps_relocate relocs l r).trans (ih _)

-- Relocating moves neither the entry nor the stack.
theorem foldl_relocate_starts (relocs : Array Relocation) (rs : List Relocation) (l : Linked) :
    (rs.foldl (relocate relocs) l).entry = l.entry ∧
      (rs.foldl (relocate relocs) l).stackTop = l.stackTop := by
  induction rs generalizing l
  case nil => exact ⟨rfl, rfl⟩
  case cons r rs ih =>
    have h : (l.relocate relocs r).entry = l.entry ∧
        (l.relocate relocs r).stackTop = l.stackTop := by
      unfold relocate
      split
      case h_1 => exact ⟨rfl, rfl⟩
      case h_2 => split <;> exact ⟨rfl, rfl⟩
    rw [List.foldl_cons, (ih _).left, (ih _).right]
    exact h

variable (l : Linked) (relocs : Array Relocation)

-- A fragment is replaced where it is.
theorem foldl_relocate_fragment {f : Fragment}
    (h : l.space.Maps base access (a ++ f.bytes ++ c)) :
    let site := base + BitVec.ofNat 32 a.length
    let l' := (Fragment.relocations site [f]).foldl (relocate relocs) l
    l.Keeps l' ∧ l'.space.Maps base access (a ++ f.linked l.symbols relocs site ++ c) ∧
      l'.diagnostics.toList = l.diagnostics.toList ++ f.faults l.symbols relocs site := by
  intro site
  cases f
  case fixed bs => exact ⟨⟨rfl, rfl, rfl⟩, h, (List.append_nil _).symm⟩
  case pending kind target w =>
    refine ⟨keeps_relocate relocs l _, ?_⟩
    have hne : w.toBytes ++ c ≠ [] := by simp [← List.length_eq_zero_iff]
    have hw : l.space.peekWord site = .ok w := h.readWord_eq (Access.allows_none _)
    simp only [Fragment.relocations, List.foldl_cons, List.foldl_nil, relocate, hw,
      Fragment.linked, Fragment.faults]
    cases Relocation.patch ⟨site, kind, target⟩ l.symbols relocs w
    case error d => exact ⟨h, Array.toList_push ..⟩
    case ok w' => exact ⟨h.overwrite hne (by simp [Fragment.bytes]), (List.append_nil _).symm⟩

theorem foldl_relocate {fs : List Fragment}
    (h : l.space.Maps base access (a ++ Fragment.image fs ++ c)) :
    let site := base + BitVec.ofNat 32 a.length
    let l' := (Fragment.relocations site fs).foldl (relocate relocs) l
    l.Keeps l' ∧
      l'.space.Maps base access (a ++ Fragment.linkedImage l.symbols relocs site fs ++ c) ∧
      l'.diagnostics.toList =
        l.diagnostics.toList ++ Fragment.allFaults l.symbols relocs site fs := by
  intro site
  induction fs generalizing l a
  case nil => exact ⟨⟨rfl, rfl, rfl⟩, h, (List.append_nil _).symm⟩
  case cons f fs ih =>
    have hf : l.space.Maps base access (a ++ f.bytes ++ (Fragment.image fs ++ c)) := by
      simpa using h
    obtain ⟨hk, hm, hd⟩ := l.foldl_relocate_fragment relocs hf
    -- The fragments that are left begin where this one ends.
    have hsite : f.after site =
        base + BitVec.ofNat 32 (a ++ f.linked l.symbols relocs site).length := by
      rw [Fragment.after, List.length_append, Fragment.length_linked, BitVec.ofNat_add,
        BitVec.add_assoc]
    rw [← List.append_assoc] at hm
    obtain ⟨hk', hm', hd'⟩ := ih _ hm
    rw [← hsite, hk.symbols] at hm' hd'
    rw [← hsite] at hk'
    rw [Fragment.relocations_cons, List.foldl_append, Fragment.linkedImage, Fragment.allFaults]
    rw [hd, List.append_assoc] at hd'
    rw [List.append_assoc a] at hm'
    exact ⟨hk.trans hk', hm', hd'⟩

end Linked

namespace Object

variable {o : Object} {cfg : LinkConfig} {l : Linked} {fs : List Fragment}

-- What is placed fits the address space.
theorem fits_of_place (ho : o.Emits fs) (h : o.place cfg = .ok l) :
    o.base.toNat + (Fragment.image fs).length ≤ addressLimit := by
  have ⟨hm, _⟩ := place_eq_ok h
  have hlimit := hm.limit
  rw [List.length_append, ho.image] at hlimit
  omega

theorem fits_of_link (ho : o.Emits fs) (h : o.link cfg = .ok l) :
    o.base.toNat + (Fragment.image fs).length ≤ addressLimit := by
  have ⟨_, hplace, _⟩ := exists_of_map_eq_ok h
  exact fits_of_place ho hplace

theorem link_eq_ok (ho : o.Emits fs) (h : o.link cfg = .ok l) :
    let image := Fragment.linkedImage o.symbols o.relocations o.base fs
    l.image = image ∧ (∃ c, l.space.Maps o.base cfg.textAccess (image ++ c)) ∧
      (l.clean ↔ (o.diagnostics = #[] ∧ cfg.base = o.base) ∧
        Fragment.allFaults o.symbols o.relocations o.base fs = []) := by
  intro image
  have ⟨l₀, hplace, hl⟩ := exists_of_map_eq_ok h
  have ⟨hm, hbase, hlen, hsym, hd⟩ := place_eq_ok hplace
  have hne := o.image_padding_ne_nil
  rw [ho.image] at hm hne
  -- Every relocation is applied to the image as it was placed.
  have ⟨hk, hm', hd'⟩ := l₀.foldl_relocate o.relocations (a := []) hm
  simp only [List.length_nil, List.nil_append, BitVec.add_zero, ← ho.relocations,
    Array.foldl_toList, hsym, hl] at hk hm' hd'
  have hlen' : image.length = o.image.size := by
    rw [Fragment.length_linkedImage, ← ho.image, Array.length_toList]
  have hne' : image ++ o.padding ≠ [] := by
    have := List.length_pos_iff.mpr hne
    rw [← List.length_pos_iff]
    simp only [List.length_append, image, Fragment.length_linkedImage] at this ⊢
    exact this
  refine ⟨?_, ⟨_, hm'⟩, ?_⟩
  case refine_1 =>
    rw [Linked.image, hk.base, hbase, hm'.regionAt?_base hne', hk.imageLen, hlen, ← hlen']
    simp [image]
  case refine_2 =>
    rw [← hd, Linked.clean, Array.isEmpty_iff, ← Array.toList_eq_nil_iff, hd',
      List.append_eq_nil_iff, Array.toList_eq_nil_iff]

end Object

end RV32IM
