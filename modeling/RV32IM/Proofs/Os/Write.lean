import RV32IM.Proofs.Memory.Row
import RV32IM.Proofs.Os.Handles

-- Writes. Bytes go to the host chunk by chunk, each as it stands in memory, up to the first chunk
-- that cannot be read or that the host refuses.

namespace RV32IM.Os

variable {η σ : Type}

-- What the stream in a slot has received, given what the streams behind handles have.
def sent (received : η → σ → List Byte) (os : Os η σ) (slot : Nat) : List Byte :=
  match os.handles[slot]?.join with
  | some x => received x os.host
  | none => []

theorem sent_of_open (received : η → σ → List Byte) {os : Os η σ} {slot : Nat} {x : η}
    (h : os.handles[slot]? = some (some x)) : os.sent received slot = received x os.host := by
  simp only [sent, h, Option.join_some]

variable [HostInterface η σ]

-- Whether a stream receives all of what is written to it, or nothing if the host refuses it.
def WritesWhole (received : η → σ → List Byte) : Prop :=
  ∀ (host : σ) (x : η) (bs : List Byte),
    let r := HostInterface.write host x bs
    received r.2.1 r.2.2 = received x host ++ if r.1 then bs else []

-- Writes strings of bytes one after the other, up to the first that the host refuses.
def putEach (os : Os η σ) (slot : Nat) : List (List Byte) → Bool × Os η σ
  | [] => (true, os)
  | bs :: rest =>
    match os.put slot bs with
    | (false, os) => (false, os)
    | (true, os) => putEach os slot rest

-- Whether whole chunks are what can be read from memory, one after the other.
inductive Chunks (space : AddressSpace) : Word → List (List Byte) → Prop
  | nil (addr : Word) : Chunks space addr []
  | cons {addr : Word} {bs : List Byte} {rest : List (List Byte)}
      (h : space.load addr chunkSize = .ok bs)
      (hrest : Chunks space (addr + BitVec.ofNat 32 chunkSize) rest) :
    Chunks space addr (bs :: rest)

variable {os os' os'' : Os η σ} {space : AddressSpace} {slot done left : Nat} {addr : Word}
  {x : η} {bs : List Byte} {chunks : List (List Byte)} {received : η → σ → List Byte}

theorem Chunks.hasBytes (hs : space.WellFormed) (h : Chunks space addr chunks) :
    chunks.flatten.length = chunkSize * chunks.length ∧ space.HasBytes addr chunks.flatten := by
  induction h
  case nil => exact ⟨rfl, AddressSpace.hasBytes_nil⟩
  case cons h _ ih =>
    have ⟨hlen, hbs⟩ := AddressSpace.hasBytes_of_load hs h
    rw [List.flatten_cons, List.length_append, List.length_cons, Nat.mul_succ, ih.left, hlen]
    exact ⟨Nat.add_comm .., hbs.append (by rw [hlen]; exact ih.right)⟩

theorem putEach_cons :
    os.putEach slot (bs :: chunks) = (true, os') ↔
      ∃ os₁, os.put slot bs = (true, os₁) ∧ os₁.putEach slot chunks = (true, os') := by
  rw [putEach]
  rcases os.put slot bs with ⟨_ | _, os₁⟩ <;> simp

section Loop

theorem writeFrom_of_load {n : Nat} (hn : n = min left chunkSize) (hleft : 0 < left)
    (hl : space.load addr n = .ok bs) (hput : os.put slot bs = (true, os')) :
    os.writeFrom space slot addr done left =
      os'.writeFrom space slot (addr + BitVec.ofNat 32 n) (done + n) (left - n) := by
  subst hn
  rw [writeFrom, if_neg (Nat.ne_of_gt hleft)]
  simp only [AddressSpace.readBytes_eq, hl, hput]

-- What is left to write after whole chunks is written from there.
theorem writeFrom_of_chunks (h : Chunks space addr chunks)
    (hlen : chunkSize * chunks.length ≤ left) (hput : os.putEach slot chunks = (true, os')) :
    os.writeFrom space slot addr done left =
      os'.writeFrom space slot (addr + BitVec.ofNat 32 (chunkSize * chunks.length))
        (done + chunkSize * chunks.length) (left - chunkSize * chunks.length) := by
  induction h generalizing os done left
  case nil =>
    cases hput
    simp
  case cons bs rest hl _ ih =>
    obtain ⟨os₁, hone, hrest⟩ := putEach_cons.mp hput
    rw [List.length_cons, Nat.mul_succ] at hlen ⊢
    rw [writeFrom_of_load (by omega) (by simp only [chunkSize] at *; omega) hl hone,
      ih (by omega) hrest, Word.add_ofNat_add, Nat.add_assoc, Nat.sub_sub,
      Nat.add_comm chunkSize]

-- What a chunk of a range is loaded as, of which the last may be shorter.
def loadChunk (space : AddressSpace) (addr : Word) (len k : Nat) : Except MemoryError (List Byte) :=
  space.load (addr + BitVec.ofNat 32 (chunkSize * k)) (min (len - chunkSize * k) chunkSize)

-- Whether the host has taken chunks of a range, and there are more.
structure Passes (os : Os η σ) (space : AddressSpace) (slot : Nat) (addr : Word) (len : Nat)
    (chunks : List (List Byte)) (os' : Os η σ) : Prop where
  loaded : Chunks space addr chunks
  taken  : os.putEach slot chunks = (true, os')
  more   : chunkSize * chunks.length < len

-- What writing a range comes to.
inductive Writes (os : Os η σ) (space : AddressSpace) (slot : Nat) (addr : Word) (done len : Nat) :
    Except MemoryError Word × Os η σ → Prop
  | nothing (h : len = 0) : Writes os space slot addr done len (.ok (BitVec.ofNat 32 done), os)
  | fault {chunks : List (List Byte)} {os' : Os η σ} {e : MemoryError}
      (h : os.Passes space slot addr len chunks os')
      (hl : loadChunk space addr len chunks.length = .error e) :
    Writes os space slot addr done len (.error e, os')
  | refused {chunks : List (List Byte)} {os' os'' : Os η σ} {bs : List Byte}
      (h : os.Passes space slot addr len chunks os')
      (hl : loadChunk space addr len chunks.length = .ok bs)
      (hput : os'.put slot bs = (false, os'')) :
    Writes os space slot addr done len (.ok (-1), os'')
  | all {chunks : List (List Byte)} {os' os'' : Os η σ} {bs : List Byte}
      (h : os.Passes space slot addr len chunks os')
      (hl : loadChunk space addr len chunks.length = .ok bs)
      (hput : os'.put slot bs = (true, os''))
      (hlast : len ≤ chunkSize * chunks.length + chunkSize) :
    Writes os space slot addr done len (.ok (BitVec.ofNat 32 (done + len)), os'')

variable {len k : Nat}

theorem loadChunk_zero : loadChunk space addr len 0 = space.load addr (min len chunkSize) := by
  simp [loadChunk]

theorem loadChunk_succ :
    loadChunk space addr len (k + 1) =
      loadChunk space (addr + BitVec.ofNat 32 chunkSize) (len - chunkSize) k := by
  simp only [loadChunk, Nat.mul_succ, Word.add_ofNat_add, Nat.sub_sub, Nat.add_comm chunkSize]

theorem passes_nil (h : 0 < len) : os.Passes space slot addr len [] os :=
  ⟨.nil addr, rfl, h⟩

theorem Passes.cons (hl : space.load addr chunkSize = .ok bs) (hput : os.put slot bs = (true, os'))
    (h : os'.Passes space slot (addr + BitVec.ofNat 32 chunkSize) (len - chunkSize) chunks os'') :
    os.Passes space slot addr len (bs :: chunks) os'' where
  loaded := .cons hl h.loaded
  taken := putEach_cons.mpr ⟨os', hput, h.taken⟩
  more := by
    have := h.more
    rw [List.length_cons, Nat.mul_succ]
    omega

theorem writes_writeFrom (os : Os η σ) (space : AddressSpace) (slot : Nat) (addr : Word)
    (done len : Nat) :
    os.Writes space slot addr done len (os.writeFrom space slot addr done len) := by
  fun_induction os.writeFrom space slot addr done len
  case case1 => exact .nothing rfl
  case case2 hlen _ _ hl =>
    exact .fault (passes_nil (Nat.pos_of_ne_zero hlen)) (loadChunk_zero.trans hl)
  case case3 hlen _ _ hl _ hput =>
    exact .refused (passes_nil (Nat.pos_of_ne_zero hlen)) (loadChunk_zero.trans hl) hput
  case case4 os addr done len hlen n bs hl os' hput ih =>
    by_cases hlast : len ≤ chunkSize
    case pos =>
      have hn : n = len := Nat.min_eq_left hlast
      rw [hn, Nat.sub_self, writeFrom, if_pos rfl]
      exact .all (passes_nil (Nat.pos_of_ne_zero hlen)) (loadChunk_zero.trans hl) hput
        (by simpa using hlast)
    case neg =>
      have hn : n = chunkSize := Nat.min_eq_right (Nat.le_of_not_le hlast)
      rw [hn] at hl ih ⊢
      generalize os'.writeFrom space _ _ _ _ = r at ih
      cases ih
      case nothing h => omega
      case fault h hl' => exact .fault (h.cons hl hput) (loadChunk_succ.trans hl')
      case refused h hl' hput' => exact .refused (h.cons hl hput) (loadChunk_succ.trans hl') hput'
      case all h hl' hput' hlast' =>
        rw [Nat.add_assoc, Nat.add_sub_of_le (Nat.le_of_not_le hlast)]
        refine .all (h.cons hl hput) (loadChunk_succ.trans hl') hput' ?_
        rw [List.length_cons, Nat.mul_succ]
        omega

end Loop

section Sent

variable (hw : WritesWhole received) (hx : os.handles[slot]? = some (some x))

include hw hx

theorem sent_put (bs : List Byte) :
    (os.put slot bs).2.sent received slot =
      os.sent received slot ++ if (os.put slot bs).1 then bs else [] := by
  have hlt := (Array.getElem?_eq_some_iff.mp hx).1
  rw [sent_of_open received hx]
  simp only [put, hx, Option.join_some]
  rw [← hw os.host x bs]
  exact sent_of_open received (by simp [update, hlt])

theorem sent_putEach (h : os.putEach slot chunks = (true, os')) :
    os'.sent received slot = os.sent received slot ++ chunks.flatten ∧
      ∃ x', os'.handles[slot]? = some (some x') := by
  induction chunks generalizing os x
  case nil =>
    cases h
    exact ⟨by simp, x, hx⟩
  case cons bs rest ih =>
    obtain ⟨os₁, hput, hrest⟩ := putEach_cons.mp h
    have hsent := sent_put hw hx bs
    have hkeep := transfers_put hx bs
    rw [hput] at hsent hkeep
    obtain ⟨_, x', _, hx', _⟩ := hkeep.slot
    have ⟨hrest, hopen⟩ := ih hx' hrest
    refine ⟨?_, hopen⟩
    rw [hrest, hsent, if_pos rfl, List.flatten_cons, List.append_assoc]

end Sent

-- Whether the host takes all chunks of a range before one that is not in one region where it can
-- be read.
def Blocked (os : Os η σ) (space : AddressSpace) (slot : Nat) (addr : Word) (len : Nat) : Prop :=
  ∃ chunks os', os.Passes space slot addr len chunks os' ∧
    ¬∃ r ∈ space.regions, r.Covers (addr + BitVec.ofNat 32 (chunkSize * chunks.length))
      (min (len - chunkSize * chunks.length) chunkSize) ∧ r.access.allows .read

-- What a write sends of the `len` bytes from an address on, and what it gives the program for it.
structure Outputs (received : η → σ → List Byte) (os : Os η σ) (space : AddressSpace) (slot : Nat)
    (addr : Word) (len : Nat) (r : Except MemoryError Word × Os η σ) : Prop where
  full : ∀ w, r.1 = .ok w → 0 ≤ w.toInt → w.toInt = len ∧
    ∃ bs, bs.length = len ∧ space.HasBytes addr bs ∧
      r.2.sent received slot = os.sent received slot ++ bs
  -- A write that does not come to its end has sent whole chunks.
  part : r.1 = .ok (-1) ∨ (∃ e, r.1 = .error e) → ∃ k bs, chunkSize * k < len ∧
    bs.length = chunkSize * k ∧ space.HasBytes addr bs ∧
      r.2.sent received slot = os.sent received slot ++ bs
  negative : ∀ w, r.1 = .ok w → w.toInt < 0 → w = -1
  fault : (∃ e, r.1 = .error e) ↔ os.Blocked space slot addr len

section Outputs

theorem outputs_of_full {r : Except MemoryError Word × Os η σ} (hlen : len < 2 ^ 31)
    (hfault : (∃ e, r.1 = .error e) ↔ os.Blocked space slot addr len)
    (hr : r.1 = .ok (BitVec.ofNat 32 len)) (hbs : bs.length = len) (hhas : space.HasBytes addr bs)
    (hsent : r.2.sent received slot = os.sent received slot ++ bs) :
    os.Outputs received space slot addr len r := by
  have hint : (BitVec.ofNat 32 len).toInt = len := Word.toInt_ofNat hlen
  constructor
  case full =>
    intro w hw _
    cases hr.symm.trans hw
    exact ⟨hint, bs, hbs, hhas, hsent⟩
  case part =>
    intro h
    rcases h with h | ⟨e, h⟩
    · have hneg := congrArg BitVec.toInt (Except.ok.inj (hr.symm.trans h))
      rw [hint] at hneg
      have : (-1 : Word).toInt = -1 := rfl
      omega
    · cases hr.symm.trans h
  case negative =>
    intro w hw hneg
    cases hr.symm.trans hw
    omega
  case fault => exact hfault

theorem outputs_of_part {r : Except MemoryError Word × Os η σ}
    (hfault : (∃ e, r.1 = .error e) ↔ os.Blocked space slot addr len)
    (hr : r.1 = .ok (-1) ∨ ∃ e, r.1 = .error e)
    (hpart : ∃ k bs, chunkSize * k < len ∧ bs.length = chunkSize * k ∧ space.HasBytes addr bs ∧
      r.2.sent received slot = os.sent received slot ++ bs) :
    os.Outputs received space slot addr len r where
  full w hw hpos := by
    rcases hr with h | ⟨e, h⟩
    · cases h.symm.trans hw
      exact absurd hpos (by decide)
    · cases h.symm.trans hw
  part _ := hpart
  negative w hw _ := by
    rcases hr with h | ⟨e, h⟩
    · exact Except.ok.inj (hw.symm.trans h)
    · cases h.symm.trans hw
  fault := hfault

variable (hw : WritesWhole received) (hs : space.WellFormed)
  (hx : os.handles[slot]? = some (some x))

include hs

theorem exists_loadChunk_iff (h : chunkSize * k < len) :
    (∃ bs, loadChunk space addr len k = .ok bs) ↔
      ∃ r ∈ space.regions, r.Covers (addr + BitVec.ofNat 32 (chunkSize * k))
        (min (len - chunkSize * k) chunkSize) ∧ r.access.allows .read :=
  AddressSpace.exists_load_iff hs (by simp only [chunkSize] at *; omega)
    (lt_addressLimit (Nat.min_le_right ..))

theorem fault_iff (os : Os η σ) (slot : Nat) (addr : Word) (done len : Nat) :
    (∃ e, (os.writeFrom space slot addr done len).1 = .error e) ↔
      os.Blocked space slot addr len := by
  constructor
  case mp =>
    intro ⟨e, he⟩
    have h := os.writes_writeFrom space slot addr done len
    generalize os.writeFrom space slot addr done len = r at h he
    cases h
    case fault chunks os' _ h hl =>
      refine ⟨chunks, os', h, ?_⟩
      rw [← exists_loadChunk_iff hs h.more]
      rintro ⟨bs, hbs⟩
      cases hl.symm.trans hbs
    all_goals cases he
  case mpr =>
    rintro ⟨chunks, os', h, hnone⟩
    rw [← exists_loadChunk_iff hs h.more] at hnone
    rw [writeFrom_of_chunks h.loaded (Nat.le_of_lt h.more) h.taken, writeFrom,
      if_neg (Nat.sub_ne_zero_of_lt h.more)]
    cases hl : loadChunk space addr len chunks.length
    case ok bs => exact absurd ⟨bs, hl⟩ hnone
    case error e =>
      rw [loadChunk] at hl
      exact ⟨e, by simp only [AddressSpace.readBytes_eq, hl]⟩

include hw hx

-- What a stream has received for the chunks that passed.
theorem Passes.sent (h : os.Passes space slot addr len chunks os') :
    chunks.flatten.length = chunkSize * chunks.length ∧ space.HasBytes addr chunks.flatten ∧
      os'.sent received slot = os.sent received slot ++ chunks.flatten ∧
      ∃ x', os'.handles[slot]? = some (some x') := by
  have ⟨hlen, hhas⟩ := h.loaded.hasBytes hs
  exact ⟨hlen, hhas, sent_putEach hw hx h.taken⟩

theorem outputs_writeFrom (hlen : len < 2 ^ 31) :
    os.Outputs received space slot addr len (os.writeFrom space slot addr 0 len) := by
  have hfault := fault_iff hs os slot addr 0 len
  have h := os.writes_writeFrom space slot addr 0 len
  generalize os.writeFrom space slot addr 0 len = r at h hfault
  cases h
  case nothing h =>
    subst h
    exact outputs_of_full hlen hfault rfl rfl AddressSpace.hasBytes_nil (List.append_nil _).symm
  case fault chunks os' e h hl =>
    have ⟨hbs, hhas, hsent, _⟩ := h.sent hw hs hx
    exact outputs_of_part hfault (.inr ⟨e, rfl⟩) ⟨_, _, h.more, hbs, hhas, hsent⟩
  case refused chunks os' os'' bs h hl hput =>
    have ⟨hbs, hhas, hsent, x', hx'⟩ := h.sent hw hs hx
    have hlast := sent_put hw hx' bs
    rw [hput] at hlast
    refine outputs_of_part hfault (.inl rfl) ⟨_, _, h.more, hbs, hhas, ?_⟩
    rw [hlast, hsent]
    exact List.append_nil _
  case all chunks os' os'' bs h hl hput hend =>
    have ⟨hbs, hhas, hsent, x', hx'⟩ := h.sent hw hs hx
    have ⟨hbs', hhas'⟩ := AddressSpace.hasBytes_of_load hs hl
    have hlast := sent_put hw hx' bs
    have hmore := h.more
    have hall : (chunks.flatten ++ bs).length = len := by
      rw [List.length_append, hbs, hbs']
      omega
    rw [hput] at hlast
    rw [Nat.zero_add] at hfault ⊢
    refine outputs_of_full hlen hfault rfl hall (hhas.append (by rwa [hbs])) ?_
    rw [hlast, hsent, if_pos rfl, List.append_assoc]

end Outputs

end RV32IM.Os
