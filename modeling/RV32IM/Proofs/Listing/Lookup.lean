import RV32IM.Listing
import RV32IM.Proofs.Elf.Load

-- The bytes of a file as a listing finds them. They are the bytes that memory holds once the file
-- is loaded, but for those of a segment that ends where the address space does: the end of such a
-- segment wraps around to zero, so none of its addresses is found.

namespace RV32IM.Listing

theorem Segment.holds_iff {t : Segment} (h : t.base.toNat + t.bytes.size ≤ addressLimit)
    (a : Word) :
    t.holds a ↔ a.Within t.base t.bytes.size ∧ t.base.toNat + t.bytes.size < addressLimit := by
  have ha := a.isLt
  simp only [holds, Word.Within, Bool.and_eq_true, decide_eq_true_eq, BitVec.le_def, BitVec.lt_def,
    BitVec.toNat_add, BitVec.toNat_ofNat, addressLimit_eq] at *
  omega

namespace Image

variable {img : Elf.Image} {s : Elf.Segment} {a addr : Word}

theorem mem_ofElf {t : Segment} (h : t ∈ (ofElf img).segments) :
    ∃ s ∈ img.segments, t.base = s.vaddr ∧ t.bytes = s.data.toArray := by
  have ⟨i, hi, he⟩ := List.mem_mapIdx.mp h
  cases he
  exact ⟨_, List.getElem_mem hi, rfl, rfl⟩

theorem exists_mem_ofElf (hs : s ∈ img.segments) :
    ∃ t ∈ (ofElf img).segments, t.base = s.vaddr ∧ t.bytes = s.data.toArray := by
  have ⟨i, hi, he⟩ := List.mem_iff_getElem.mp hs
  subst he
  exact ⟨_, List.mem_mapIdx.mpr ⟨i, hi, rfl⟩, rfl, rfl⟩

section Fits

variable (hfit : ∀ s ∈ img.segments, s.Fits)

include hfit

theorem holds_ofElf_iff {t : Segment} (hs : s ∈ img.segments) (hb : t.base = s.vaddr)
    (hd : t.bytes = s.data.toArray) :
    t.holds a ↔ s.Holds a ∧ s.vaddr.toNat + s.data.length < addressLimit := by
  have hf := hfit s hs
  have hle : t.base.toNat + t.bytes.size ≤ addressLimit := by
    have := hf.data
    have := hf.limit
    rw [hb, hd, List.size_toArray]
    omega
  rw [Segment.holds_iff hle, hb, hd, List.size_toArray]
  rfl

-- The byte of an address is that of the one segment that holds it, if its end does not wrap around.
theorem byte?_ofElf {space space' : AddressSpace}
    (hload : Elf.Image.Loaded space space' img.segments) (hs : s ∈ img.segments) (ha : s.Holds a) :
    (ofElf img).byte? a =
      if s.vaddr.toNat + s.data.length < addressLimit then s.data[a.toNat - s.vaddr.toNat]?
      else none := by
  have honly {t} (ht : t ∈ (ofElf img).segments) (hta : t.holds a) :
      t.base = s.vaddr ∧ t.bytes = s.data.toArray := by
    have ⟨s', hs', hb, hd⟩ := mem_ofElf ht
    have hsa := ((holds_ofElf_iff hfit hs' hb hd).mp hta).left
    exact hload.eq_of_holds hs' hs hsa ha ▸ ⟨hb, hd⟩
  unfold byte?
  cases hf : (ofElf img).segments.find? (·.holds a)
  case none =>
    have ⟨t, ht, hb, hd⟩ := exists_mem_ofElf hs
    have hta : ¬t.holds a := by simpa using List.find?_eq_none.mp hf t ht
    rw [holds_ofElf_iff hfit hs hb hd] at hta
    rw [if_neg fun hlt => hta ⟨ha, hlt⟩]
    rfl
  case some t =>
    have hta : t.holds a := (List.find?_some hf :)
    have ⟨hb, hd⟩ := honly (List.mem_of_find?_eq_some hf) hta
    rw [if_pos ((holds_ofElf_iff hfit hs hb hd).mp hta).right, Option.bind_some, hb, hd,
      List.getElem?_toArray]

-- Four bytes in a row that are found make up the word that memory holds there.
theorem word?_ofElf {space space' : AddressSpace}
    (hload : Elf.Image.Loaded space space' img.segments) (hs : s ∈ img.segments)
    (ha : s.vaddr.Spans s.data.length addr 4) :
    ∃ w, space'.peekWord addr = .ok w ∧
      (ofElf img).word? addr =
        if s.vaddr.toNat + s.data.length < addressLimit then some w else none := by
  have hlimit : s.vaddr.toNat + s.data.length ≤ addressLimit := by
    have := (hfit s hs).data
    have := (hfit s hs).limit
    omega
  have ⟨bs, hread, hlen, hbs⟩ := AddressSpace.exists_read hload.wellFormed
    ((hload.mapped s hs).of_spans ha) (by decide : 0 < 4) (lt_addressLimit (by decide))
  match bs, hlen with
  | [b₀, b₁, b₂, b₃], _ =>
    have hbyte (k : Nat) (hk : k < 4) : (ofElf img).byte? (addr + BitVec.ofNat 32 k) =
        if s.vaddr.toNat + s.data.length < addressLimit then [b₀, b₁, b₂, b₃][k]? else none := by
      have hend : addr.toNat + 4 ≤ addressLimit := Nat.le_trans ha.right hlimit
      have ⟨hin, hoffset⟩ := Word.within_add_ofNat hend hk
      have hs' := ha.within hin
      rw [byte?_ofElf hfit hload hs hs', ← hload.data s hs _ hs', hbs _ hin, hoffset]
    refine ⟨.ofBytes [b₀, b₁, b₂, b₃], by rw [AddressSpace.peekWord, hread]; rfl, ?_⟩
    have h₀ := hbyte 0 (by decide)
    have h₁ : (ofElf img).byte? (addr + 1) = _ := hbyte 1 (by decide)
    have h₂ : (ofElf img).byte? (addr + 2) = _ := hbyte 2 (by decide)
    have h₃ : (ofElf img).byte? (addr + 3) = _ := hbyte 3 (by decide)
    rw [BitVec.add_zero] at h₀
    rw [word?, bytes?, h₀, h₁, h₂, h₃]
    split <;> rfl

end Fits

-- A listing shows each byte of a file that memory holds, at the same address, but for the segments
-- whose end wraps around.
theorem lookup_loaded {file : List Byte} {space : AddressSpace} (hread : Elf.read file = .ok img)
    (hload : img.load .empty = (.ok (), space)) (base : Word) (skip : Nat) (len : Option Nat) :
    ofFile file base skip len = .ok (ofElf img) ∧
      ∀ s ∈ img.segments,
        (∀ i b, s.data[i]? = some b →
          let a := s.vaddr + BitVec.ofNat 32 i
          space.byte? a = some b ∧
            (ofElf img).byte? a =
              if s.vaddr.toNat + s.data.length < addressLimit then some b else none) ∧
        ∀ addr, s.vaddr.Spans s.data.length addr 4 →
          ∃ w, space.peekWord addr = .ok w ∧
            (ofElf img).word? addr =
              if s.vaddr.toNat + s.data.length < addressLimit then some w else none := by
  have hfit := Elf.fits_of_read hread
  have hl := Elf.Image.loaded_of_loadSegments AddressSpace.wellFormed_empty hload
  refine ⟨?file, fun s hs => ⟨fun i b hb => ?bytes, fun addr ha => word?_ofElf hfit hl hs ha⟩⟩
  case file => rw [ofFile, if_pos (Elf.isElf_of_read hread), hread]
  case bytes =>
    have ⟨hi, _⟩ := List.getElem?_eq_some_iff.mp hb
    have hsum : (s.vaddr + BitVec.ofNat 32 i).toNat = s.vaddr.toNat + i := by
      have := (hfit s hs).data
      have := (hfit s hs).limit
      exact Word.toNat_add_ofNat (by omega)
    have ha : s.Holds (s.vaddr + BitVec.ofNat 32 i) := by
      refine ⟨?_, by omega⟩
      rw [BitVec.le_def]
      omega
    have hoff : s.data[(s.vaddr + BitVec.ofNat 32 i).toNat - s.vaddr.toNat]? = some b := by
      rw [hsum, Nat.add_sub_cancel_left, hb]
    exact ⟨(hl.data s hs _ ha).trans hoff, by rw [byte?_ofElf hfit hl hs ha, hoff]⟩

-- One segment of four bytes.
def wordSegment (vaddr : Word) : Elf.Segment :=
  ⟨vaddr, [1, 2, 3, 4], 4, .all⟩

def wordImage (vaddr : Word) : Elf.Image :=
  ⟨vaddr, [wordSegment vaddr]⟩

-- The file of the image, with the data right after the headers.
def wordFile (vaddr : Word) : List Byte :=
  (wordImage vaddr).headerBytes ++ Elf.Image.programHeaderBytes (84, wordSegment vaddr) ++
    (wordSegment vaddr).data

theorem lookup_loaded_word :
    ∃ space, Elf.read (wordFile 0x1000) = .ok (wordImage 0x1000) ∧
      (wordImage 0x1000).load .empty = (.ok (), space) ∧
      space.byte? 0x1001 = some 2 ∧ (ofElf (wordImage 0x1000)).byte? 0x1001 = some 2 := by
  have hread : Elf.read (wordFile 0x1000) = .ok (wordImage 0x1000) := by decide +kernel
  have hok : ((wordImage 0x1000).load .empty).fst = .ok () := by decide +kernel
  -- What is loaded is too large to be compared with itself by evaluation.
  have ⟨space, hload⟩ : ∃ space, (wordImage 0x1000).load .empty = (.ok (), space) := by
    generalize (wordImage 0x1000).load .empty = r at hok ⊢
    exact ⟨r.snd, Prod.ext hok rfl⟩
  have ⟨_, hall⟩ := lookup_loaded hread hload 0 0 none
  have ⟨hbytes, _⟩ := hall (wordSegment 0x1000) (List.mem_singleton_self _)
  have ⟨hspace, hlisting⟩ := hbytes 1 2 rfl
  exact ⟨space, hread, hload, hspace, hlisting⟩

-- Memory holds the last word of the address space, and a listing finds none of its bytes.
theorem lookup_top_none :
    ∃ space, Elf.read (wordFile 0xFFFFFFFC) = .ok (wordImage 0xFFFFFFFC) ∧
      (wordImage 0xFFFFFFFC).load .empty = (.ok (), space) ∧
      ofFile (wordFile 0xFFFFFFFC) 0 0 none = .ok (ofElf (wordImage 0xFFFFFFFC)) ∧
      space.byte? 0xFFFFFFFC = some 1 ∧
      (ofElf (wordImage 0xFFFFFFFC)).byte? 0xFFFFFFFC = none ∧
      space.peekWord 0xFFFFFFFC = .ok 0x04030201 ∧
      (ofElf (wordImage 0xFFFFFFFC)).word? 0xFFFFFFFC = none := by
  have hread : Elf.read (wordFile 0xFFFFFFFC) = .ok (wordImage 0xFFFFFFFC) := by decide +kernel
  have hload : ((wordImage 0xFFFFFFFC).load .empty).fst = .ok () ∧
      ((wordImage 0xFFFFFFFC).load .empty).snd.byte? 0xFFFFFFFC = some 1 ∧
      ((wordImage 0xFFFFFFFC).load .empty).snd.peekWord 0xFFFFFFFC = .ok 0x04030201 := by
    decide +kernel
  have hfile : ofFile (wordFile 0xFFFFFFFC) 0 0 none = .ok (ofElf (wordImage 0xFFFFFFFC)) := by
    rw [ofFile, if_pos (Elf.isElf_of_read hread), hread]
  generalize (wordImage 0xFFFFFFFC).load .empty = r at hload ⊢
  have ⟨hok, hbyte, hword⟩ := hload
  exact ⟨r.snd, hread, Prod.ext hok rfl, hfile, hbyte, by decide, hword, by decide⟩

end Image

end RV32IM.Listing
