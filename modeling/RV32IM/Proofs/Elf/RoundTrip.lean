import RV32IM.Proofs.Elf.Load

-- Files that are written and read. The data of the segments is laid out after the headers in the
-- order of the segments, each piece of it where its program header says, so that reading a file
-- gives back the image that was written to it.

namespace RV32IM.Elf

section Number

variable {a b : List Byte} {offset n v : Nat}

theorem number_append_right (h : a.length ≤ offset) :
    number (a ++ b) offset n = number b (offset - a.length) n := by
  rw [number, number, List.drop_append, List.drop_of_length_le h, List.nil_append]

-- A number is read where it was written.
theorem number_encode (hv : v < valueCount (8 * n)) :
    number (LittleEndian.encode n v ++ b) 0 n = v := by
  rw [number, List.drop_zero, List.take_left' (LittleEndian.length_encode n v),
    LittleEndian.value_encode, Nat.mod_eq_of_lt hv]

theorem number_lt (file : List Byte) (offset n : Nat) :
    number file offset n < valueCount (8 * n) := by
  have hlen : ((file.drop offset).take n).length ≤ n := List.length_take_le ..
  refine Nat.lt_of_lt_of_le (LittleEndian.value_lt _) ?_
  simp only [valueCount, Nat.one_shiftLeft]
  exact Nat.pow_le_pow_right Nat.two_pos (Nat.mul_le_mul_left 8 hlen)

end Number

-- Whether a segment is as the loader takes it: it fits its span, the size of the span is a word,
-- and it asks for nothing but the three permissions.
structure Segment.Valid (s : Segment) : Prop extends s.Fits where
  size   : s.memSize < addressLimit
  access : Access.all.allows s.access

-- The program header of a segment whose data begins at an offset.
def Segment.headerAt (s : Segment) (offset : Nat) : ProgramHeader :=
  ⟨loadType, offset, s.vaddr.toNat, s.data.length, s.memSize, s.access.bits.toNat⟩

-- What a segment has from its program header and from the file.
structure Segment.ReadFrom (s : Segment) (file : List Byte) (ph : ProgramHeader) : Prop where
  inside  : ph.offset + ph.filesz ≤ file.length
  data    : s.data = (file.drop ph.offset).take ph.filesz
  vaddr   : s.vaddr.toNat = ph.vaddr
  memSize : s.memSize = ph.memsz
  access  : s.access.bits = BitVec.ofNat 8 ph.flags &&& Access.all.bits

section Segment

variable {file before after : List Byte} {ph : ProgramHeader} {s : Segment}

theorem readSegment_headerAt (hf : file = before ++ (s.data ++ after)) (hs : s.Valid) :
    readSegment file (s.headerAt before.length) = .ok s := by
  have ha : s.access.bits &&& 7 = s.access.bits := by
    have h := hs.access
    simp only [Access.allows, beq_iff_eq] at h
    exact (BitVec.and_comm ..).trans h
  have hdrop : file.drop before.length = s.data ++ after := by rw [hf, List.drop_left]
  simp only [readSegment, guard_eq_ok_iff]
  refine ⟨?_, ?_, ?_, ?_⟩
  case refine_1 => exact Nat.not_lt.mpr hs.data
  case refine_2 => exact Nat.not_lt.mpr hs.limit
  case refine_3 =>
    have hlen : file.length = before.length + (s.data.length + after.length) := by
      rw [hf, List.length_append, List.length_append]
    simp only [Segment.headerAt]
    omega
  case refine_4 =>
    simp only [Segment.headerAt, hdrop, List.take_left, BitVec.ofNat_toNat, BitVec.setWidth_eq,
      Access.all, ha]
    rfl

theorem readFrom_of_readSegment (hv : ph.vaddr < addressLimit) (hm : ph.memsz < addressLimit)
    (h : readSegment file ph = .ok s) : s.Valid ∧ s.ReadFrom file ph := by
  have hfits := fits_of_readSegment h
  simp only [readSegment, guard_eq_ok_iff] at h
  obtain ⟨_, _, hlen, h⟩ := h
  cases h
  refine ⟨⟨hfits, hm, ?_⟩, ⟨Nat.not_lt.mp hlen, rfl, ?_, rfl, rfl⟩⟩
  case refine_1 =>
    simp only [Access.allows, beq_iff_eq]
    rw [BitVec.and_comm, BitVec.and_assoc, BitVec.and_self]
  case refine_2 => exact (BitVec.toNat_ofNat ..).trans (Nat.mod_eq_of_lt hv)

theorem lt_of_mem_programHeaders {n : Nat} (h : ph ∈ programHeaders n file) :
    ph.vaddr < addressLimit ∧ ph.memsz < addressLimit := by
  induction n generalizing file
  case zero => cases h
  case succ n ih =>
    rcases List.mem_cons.mp h with rfl | h
    case inl => exact ⟨number_lt file 8 4, number_lt file 20 4⟩
    case inr => exact ih h

end Segment

namespace Image

variable {cursor : Nat} {vaddr : Word} {s : Segment} {ss : List Segment} {p : Nat × Segment}

theorem le_alignedOffset (cursor : Nat) (vaddr : Word) : cursor ≤ alignedOffset cursor vaddr := by
  unfold alignedOffset pageSize
  dsimp only
  split <;> omega

theorem alignedOffset_lt (cursor : Nat) (vaddr : Word) :
    alignedOffset cursor vaddr < cursor + pageSize := by
  unfold alignedOffset pageSize
  dsimp only
  split <;> omega

theorem alignedOffset_mod (cursor : Nat) (vaddr : Word) :
    alignedOffset cursor vaddr % pageSize = vaddr.toNat % pageSize := by
  unfold alignedOffset pageSize
  dsimp only
  split <;> omega

theorem map_snd_placed (cursor : Nat) (ss : List Segment) :
    (placed cursor ss).map Prod.snd = ss := by
  induction ss generalizing cursor
  case nil => rfl
  case cons s ss ih => rw [placed, List.map_cons, ih]

theorem length_placed (cursor : Nat) (ss : List Segment) :
    (placed cursor ss).length = ss.length := by
  rw [← List.length_map Prod.snd, map_snd_placed]

theorem mem_of_mem_placed (h : p ∈ placed cursor ss) : p.2 ∈ ss := by
  rw [← map_snd_placed cursor ss]
  exact List.mem_map_of_mem h

theorem le_of_mem_placed (h : p ∈ placed cursor ss) : cursor ≤ p.1 := by
  induction ss generalizing cursor
  case nil => cases h
  case cons s ss ih =>
    have hle := le_alignedOffset cursor s.vaddr
    rcases List.mem_cons.mp h with rfl | h
    case inl => exact hle
    case inr => exact Nat.le_trans (Nat.le_trans hle (Nat.le_add_right _ _)) (ih h)

theorem mod_of_mem_placed (h : p ∈ placed cursor ss) :
    p.1 % pageSize = p.2.vaddr.toNat % pageSize := by
  induction ss generalizing cursor
  case nil => cases h
  case cons s ss ih =>
    rcases List.mem_cons.mp h with rfl | h
    case inl => exact alignedOffset_mod cursor s.vaddr
    case inr => exact ih h

-- Each piece of data begins after the one before it.
theorem pairwise_placed (cursor : Nat) (ss : List Segment) :
    (placed cursor ss).Pairwise fun p q => p.1 + p.2.data.length ≤ q.1 := by
  induction ss generalizing cursor
  case nil => exact .nil
  case cons s ss ih => exact .cons (fun _ hq => le_of_mem_placed hq) (ih _)

-- The data of a segment is where it was placed, after whatever precedes all data.
theorem exists_dataBytes {a : List Byte} (ha : a.length = cursor) (h : p ∈ placed cursor ss) :
    ∃ before after, a ++ dataBytes cursor (placed cursor ss) = before ++ (p.2.data ++ after) ∧
      before.length = p.1 := by
  induction ss generalizing a cursor
  case nil => cases h
  case cons s ss ih =>
    have hle := le_alignedOffset cursor s.vaddr
    rw [placed] at h ⊢
    generalize alignedOffset cursor s.vaddr = offset at *
    have hbefore : (a ++ List.replicate (offset - cursor) 0).length = offset := by
      rw [List.length_append, List.length_replicate]
      omega
    rcases List.mem_cons.mp h with rfl | h
    case inl => exact ⟨_, _, List.append_assoc .. |>.symm, hbefore⟩
    case inr =>
      have hnext : (a ++ List.replicate (offset - cursor) 0 ++ s.data).length =
          offset + s.data.length := by
        rw [List.length_append, hbefore]
      simpa only [dataBytes, List.append_assoc] using ih hnext h

@[simp]
theorem length_half (n : Nat) : (half n).length = 2 :=
  LittleEndian.length_encode ..

@[simp]
theorem length_full (n : Nat) : (full n).length = 4 :=
  LittleEndian.length_encode ..

@[simp]
theorem length_identBytes : identBytes.length = 16 := by decide

theorem number_half {n : Nat} (hn : n < 65536) (b : List Byte) : number (half n ++ b) 0 2 = n :=
  number_encode hn

theorem number_full {n : Nat} (hn : n < addressLimit) (b : List Byte) :
    number (full n ++ b) 0 4 = n :=
  number_encode hn

theorem length_headerBytes (img : Image) : img.headerBytes.length = headerSize := by
  simp only [headerBytes, List.length_append, length_identBytes, length_half, length_full]
  rfl

section Header

variable {img : Image} (hn : img.segments.length < 65536) (rest : List Byte)
include hn

theorem readHeader_headerBytes : readHeader (img.headerBytes ++ rest) =
    .ok ⟨img.entry, headerSize, img.segments.length⟩ := by
  have helf : isElf (img.headerBytes ++ rest) = true := rfl
  have hlen : (img.headerBytes ++ rest).length = headerSize + rest.length := by
    rw [List.length_append, length_headerBytes]
  have hshort : ¬headerSize + rest.length < 16 := by simp only [headerSize]; omega
  have hsize : ¬headerSize + rest.length < 52 := by simp only [headerSize]; omega
  -- Each field is found by going past those before it.
  have hfields : number (img.headerBytes ++ rest) 4 1 = 1 ∧
      number (img.headerBytes ++ rest) 5 1 = 1 ∧
      number (img.headerBytes ++ rest) 16 2 = executableType ∧
      number (img.headerBytes ++ rest) 18 2 = riscvMachine ∧
      number (img.headerBytes ++ rest) 24 4 = img.entry.toNat ∧
      number (img.headerBytes ++ rest) 28 4 = headerSize ∧
      number (img.headerBytes ++ rest) 44 2 = img.segments.length := by
    simp only [headerBytes, List.append_assoc, number_append_right, length_identBytes, length_half,
      length_full, Nat.reduceLeDiff, Nat.reduceSub]
    exact ⟨rfl, rfl, number_half (by decide) _, number_half (by decide) _,
      number_full img.entry.isLt _, number_full (by decide) _, number_half hn _⟩
  obtain ⟨hclass, hencoding, htype, hmachine, hentry, hphoff, hphnum⟩ := hfields
  simp [readHeader, helf, hlen, hshort, hsize, hclass, hencoding, htype, hmachine, hentry, hphoff,
    hphnum, headerSizeOf?]
  rfl

end Header

theorem length_programHeaderBytes (p : Nat × Segment) :
    (programHeaderBytes p).length = programHeaderSize := by
  simp only [programHeaderBytes, List.length_append, length_full]
  rfl

theorem length_flatMap_programHeaderBytes (ps : List (Nat × Segment)) :
    (ps.flatMap programHeaderBytes).length = ps.length * programHeaderSize := by
  induction ps
  case nil => rfl
  case cons p ps ih =>
    rw [List.flatMap_cons, List.length_append, ih, length_programHeaderBytes, List.length_cons,
      Nat.succ_mul, Nat.add_comm]

theorem programHeaders_flatMap {ps : List (Nat × Segment)} (rest : List Byte)
    (hv : ∀ p ∈ ps, p.2.Valid) (ho : ∀ p ∈ ps, p.1 < addressLimit) :
    programHeaders ps.length (ps.flatMap programHeaderBytes ++ rest) =
      ps.map fun p => p.2.headerAt p.1 := by
  induction ps
  case nil => rfl
  case cons p ps ih =>
    have ⟨hv, hvs⟩ := List.forall_mem_cons.mp hv
    have ⟨ho, hos⟩ := List.forall_mem_cons.mp ho
    have hdata : p.2.data.length < addressLimit := Nat.lt_of_le_of_lt hv.data hv.size
    have hbits : p.2.access.bits.toNat < addressLimit :=
      Nat.lt_trans p.2.access.bits.isLt (by decide)
    have hmax : max p.2.memSize p.2.data.length = p.2.memSize := Nat.max_eq_left hv.data
    rw [List.flatMap_cons, List.append_assoc, List.length_cons, programHeaders, List.map_cons,
      List.drop_left' (length_programHeaderBytes p), ih hvs hos, programHeaderBytes, hmax,
      Segment.headerAt]
    refine congrArg (List.cons · _) ?_
    simp only [List.append_assoc, number_append_right, length_full, Nat.reduceLeDiff,
      Nat.reduceSub, number_full ho, number_full p.2.vaddr.isLt, number_full hdata,
      number_full hv.size, number_full hbits, number_full (by decide : loadType < addressLimit)]

-- Where the headers of an image end.
def headersEnd (img : Image) : Nat :=
  headerSize + img.segments.length * programHeaderSize

-- The segments of an image with the offsets that its file gives their data.
def places (img : Image) : List (Nat × Segment) :=
  placed img.headersEnd img.segments

theorem write_eq (img : Image) : img.write = img.headerBytes ++
    (img.places.flatMap programHeaderBytes ++ dataBytes img.headersEnd img.places) :=
  rfl

theorem map_snd_places (img : Image) : img.places.map Prod.snd = img.segments :=
  map_snd_placed ..

theorem length_places (img : Image) : img.places.length = img.segments.length :=
  length_placed ..

theorem exists_write_eq {img : Image} (h : p ∈ img.places) :
    ∃ before after, img.write = before ++ (p.2.data ++ after) ∧ before.length = p.1 := by
  have hlen : (img.headerBytes ++ img.places.flatMap programHeaderBytes).length =
      img.headersEnd := by
    rw [List.length_append, length_headerBytes, length_flatMap_programHeaderBytes, length_places,
      headersEnd]
  rw [write_eq, ← List.append_assoc]
  exact exists_dataBytes hlen h

theorem add_le_length_write {img : Image} (h : p ∈ img.places) :
    p.1 + p.2.data.length ≤ img.write.length := by
  have ⟨before, after, hw, hlen⟩ := exists_write_eq h
  rw [hw, ← hlen, List.length_append, List.length_append]
  omega

theorem headersEnd_le_length_write (img : Image) : img.headersEnd ≤ img.write.length := by
  rw [write_eq, List.length_append, List.length_append, length_headerBytes,
    length_flatMap_programHeaderBytes, length_places, headersEnd]
  omega

-- How the file of an image is laid out.
structure Lays (img : Image) (ps : List (Nat × Segment)) : Prop where
  segments : ps.map Prod.snd = img.segments
  headers  : programHeaders img.segments.length (img.write.drop headerSize) =
    ps.map fun p => p.2.headerAt p.1
  inside   : ∀ p ∈ ps, p.1 + p.2.data.length ≤ img.write.length
  data     : ∀ p ∈ ps, (img.write.drop p.1).take p.2.data.length = p.2.data
  aligned  : ∀ p ∈ ps, p.1 % pageSize = p.2.vaddr.toNat % pageSize
  after    : ∀ p ∈ ps, headerSize + img.segments.length * programHeaderSize ≤ p.1
  apart    : ps.Pairwise fun p q => p.1 + p.2.data.length ≤ q.1

section Offsets

variable {img : Image} (hv : ∀ s ∈ img.segments, s.Valid)
  (ho : ∀ p ∈ img.places, p.1 < addressLimit)
include hv ho

theorem programHeaders_write : programHeaders img.segments.length (img.write.drop headerSize) =
    img.places.map fun p => p.2.headerAt p.1 := by
  rw [write_eq, List.drop_left' (length_headerBytes img), ← length_places]
  exact programHeaders_flatMap _ (fun p hp => hv _ (mem_of_mem_placed hp)) ho

theorem lays_places : img.Lays img.places := by
  constructor
  case segments => exact map_snd_places img
  case headers => exact programHeaders_write hv ho
  case inside => exact fun p hp => add_le_length_write hp
  case data =>
    intro p hp
    have ⟨before, after, hw, hlen⟩ := exists_write_eq hp
    rw [hw, ← hlen, List.drop_left, List.take_left]
  case aligned => exact fun p hp => mod_of_mem_placed hp
  case after => exact fun p hp => le_of_mem_placed hp
  case apart => exact pairwise_placed ..

omit ho in
-- Every segment is read back from where its program header puts its data.
theorem mapM_readSegment : (img.places.map fun p => p.2.headerAt p.1).mapM (readSegment img.write) =
    .ok img.segments := by
  have hread : ∀ p ∈ img.places, readSegment img.write (p.2.headerAt p.1) = .ok p.2 := by
    intro p hp
    have ⟨before, after, hw, hlen⟩ := exists_write_eq hp
    rw [← hlen]
    exact readSegment_headerAt hw (hv _ (mem_of_mem_placed hp))
  rw [← map_snd_places img]
  generalize img.places = ps at hread
  induction ps
  case nil => rfl
  case cons p ps ih =>
    have ⟨hp, hps⟩ := List.forall_mem_cons.mp hread
    rw [List.map_cons, List.mapM_cons, hp, ih hps]
    rfl

theorem read_write_of_lt (hn : img.segments.length < 65536) : read img.write = .ok img := by
  have hle := headersEnd_le_length_write img
  have hload : ((img.places.map fun p => p.2.headerAt p.1).filter (·.type = loadType)) =
      img.places.map fun p => p.2.headerAt p.1 := by
    refine List.filter_eq_self.mpr fun ph hph => ?_
    have ⟨p, _, hp⟩ := List.mem_map.mp hph
    rw [← hp]
    rfl
  have hcount : ¬img.segments.length > img.write.length / programHeaderSize := by
    simp only [headersEnd, headerSize, programHeaderSize] at *
    omega
  have hplace : ¬(img.segments.length ≠ 0 ∧
      headerSize + img.segments.length * programHeaderSize > img.write.length) :=
    fun h => absurd hle (Nat.not_le.mpr h.right)
  have hheader : readHeader img.write = .ok ⟨img.entry, headerSize, img.segments.length⟩ :=
    readHeader_headerBytes hn _
  simp only [read, hheader, bind, Except.bind, hcount, hplace, if_false,
    programHeaders_write hv ho, hload, mapM_readSegment hv]
  rfl

end Offsets

end Image

section Read

variable {file : List Byte} {img : Image}

theorem forall₂_of_mapM_eq_ok {ε α β : Type} {f : α → Except ε β} {P : α → β → Prop}
    {as : List α} {bs : List β} (hf : ∀ a ∈ as, ∀ b, f a = .ok b → P a b)
    (h : as.mapM f = .ok bs) : List.Forall₂ P as bs := by
  induction as generalizing bs
  case nil =>
    cases h
    exact .nil
  case cons a as ih =>
    have ⟨hfa, hfas⟩ := List.forall_mem_cons.mp hf
    rw [List.mapM_cons] at h
    have ⟨b, hb, h⟩ := exists_of_bind_eq_ok h
    have ⟨bs, hbs, h⟩ := exists_of_bind_eq_ok h
    cases h
    exact .cons (hfa b hb) (ih hfas hbs)

-- What is read from a file is what its headers say.
theorem readFrom_of_read (h : read file = .ok img) :
    ∃ header, readHeader file = .ok header ∧ img.entry = header.entry ∧
      List.Forall₂ (fun ph s => s.Valid ∧ s.ReadFrom file ph)
        ((programHeaders header.phnum (file.drop header.phoff)).filter (·.type = loadType))
        img.segments := by
  have ⟨header, hh, h⟩ := exists_of_bind_eq_ok h
  simp only [guard_eq_ok_iff] at h
  have ⟨_, _, h⟩ := h
  have ⟨segments, hs, h⟩ := exists_of_bind_eq_ok h
  cases h
  refine ⟨header, hh, rfl, forall₂_of_mapM_eq_ok (fun ph hph s hs => ?_) hs⟩
  have ⟨hv, hm⟩ := lt_of_mem_programHeaders (List.mem_of_mem_filter hph)
  exact readFrom_of_readSegment hv hm hs

end Read

-- An image survives being written and read back, and whatever is read is an image of this kind.
theorem read_write :
    (∀ img : Image, img.segments.length < 65536 → img.write.length < addressLimit →
      (∀ s ∈ img.segments, s.Valid) →
      read img.write = .ok img ∧ ∃ ps, img.Lays ps) ∧
    ∀ file img, read file = .ok img →
      ∃ header, readHeader file = .ok header ∧ img.entry = header.entry ∧
        List.Forall₂ (fun ph s => s.Valid ∧ s.ReadFrom file ph)
          ((programHeaders header.phnum (file.drop header.phoff)).filter (·.type = loadType))
          img.segments := by
  refine ⟨fun img hn hlen hv => ?_, fun file img h => readFrom_of_read h⟩
  have ho : ∀ p ∈ img.places, p.1 < addressLimit := fun p hp => by
    have := Image.add_le_length_write hp
    omega
  exact ⟨Image.read_write_of_lt hv ho hn, img.places, Image.lays_places hv ho⟩

-- A span of code, an empty span in the middle of a page and a span whose end is zero.
def sampleImage : Image :=
  ⟨0x10094, [⟨0x10094, [0x73, 0, 0, 0], 4, .readExecute⟩, ⟨0x20003, [], 0, .none⟩,
    ⟨0x30007, [1, 2], 16, .readWrite⟩]⟩

theorem read_write_sampleImage :
    (read sampleImage.write = .ok sampleImage ∧ ∃ ps, sampleImage.Lays ps) ∧
      ∃ header, readHeader sampleImage.write = .ok header ∧ sampleImage.entry = header.entry ∧
        List.Forall₂ (fun ph s => s.Valid ∧ s.ReadFrom sampleImage.write ph)
          ((programHeaders header.phnum (sampleImage.write.drop header.phoff)).filter
            (·.type = loadType))
          sampleImage.segments :=
  have h := read_write.left sampleImage (by decide) (by decide +kernel) fun s hs => by
    simp only [sampleImage, List.mem_cons, List.not_mem_nil, or_false] at hs
    rcases hs with rfl | rfl | rfl <;> exact ⟨⟨by decide, by decide⟩, by decide, by decide⟩
  ⟨h, read_write.right _ _ h.left⟩

end RV32IM.Elf
