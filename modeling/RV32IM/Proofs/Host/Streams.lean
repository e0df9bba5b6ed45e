import RV32IM.Proofs.Os.Stream
import RV32IM.Proofs.Os.Write

-- The streams of a host. A read gives no more than it is asked for, and a write is received as a
-- whole or not at all.

namespace RV32IM

namespace Directory

variable {d : Directory} {name : String} {bs : List Byte}

theorem contents?_put (d : Directory) (name : String) (bs : List Byte) :
    (d.put name bs).contents? name = some bs := by
  obtain ⟨fs⟩ := d
  unfold put contents?
  split
  case isFalse h =>
    rw [List.lookup_append, Option.not_isSome_iff_eq_none.mp h]
    simp
  case isTrue h =>
    induction fs
    case nil => cases h
    case cons f fs ih =>
      obtain ⟨n, contents⟩ := f
      by_cases hn : n = name
      case pos => simp [hn]
      case neg =>
        have hne : (name == n) = false := by simpa using Ne.symm hn
        simp only [List.lookup_cons, hne, List.map_cons, if_neg hn] at h ih ⊢
        exact ih h

end Directory

theorem Sink.toList_write? {s s' : Sink} {bs : List Byte} (h : s.write? bs = some s') :
    s'.written.toList = s.written.toList ++ bs := by
  unfold Sink.write? at h
  split at h
  case isTrue =>
    cases h
    exact Array.toList_appendList
  case isFalse => cases h

theorem take_spliceAt (pos : Nat) (bs contents : List Byte) :
    (spliceAt pos bs contents).take (pos + bs.length) =
      contents.take pos ++ List.replicate (pos - contents.length) 0 ++ bs := by
  have hlen : (contents.take pos ++ List.replicate (pos - contents.length) 0 ++ bs).length =
      pos + bs.length := by
    simp only [List.length_append, List.length_take, List.length_replicate]
    omega
  rw [spliceAt, ← hlen, List.take_left]

theorem length_spliceAt (pos : Nat) (bs contents : List Byte) :
    pos + bs.length ≤ (spliceAt pos bs contents).length := by
  simp only [spliceAt, List.length_append, List.length_take, List.length_replicate]
  omega

namespace Os

theorem length_readStdin {host : Host} {n : Nat} {bs : List Byte}
    (h : (host.readStdin n).1 = some bs) : bs.length ≤ n := by
  unfold Host.readStdin at h
  split at h
  case isTrue =>
    cases h
    exact Nat.zero_le n
  case isFalse =>
  split at h
  case h_1 =>
    cases h
    exact Nat.zero_le n
  case h_2 => cases h
  case h_3 =>
    cases h
    exact List.length_take_le ..

theorem readsWithin_host : ReadsWithin Handle Host := by
  intro host x n bs h
  cases x
  case stdin => exact length_readStdin h
  case stdout | stderr | directory => cases h
  case file f =>
    simp only [HostInterface.read, Host.read] at h
    split at h
    case isTrue =>
      cases h
      exact List.length_take_le ..
    case isFalse => cases h

-- What the stream behind a handle has received. Of a file it is what stands before the position,
-- or all of a file that is appended to.
def received : Handle → Host → List Byte
  | .stdout, h => h.stdout.written.toList
  | .stderr, h => h.stderr.written.toList
  | .file f, h =>
    let contents := (h.dir.contents? f.name).getD []
    if f.append then contents
    else contents.take f.pos ++ List.replicate (f.pos - contents.length) 0
  | .stdin, _ | .directory, _ => []

theorem received_write? {h h' : Host} {x x' : Handle} {bs : List Byte}
    (hw : h.write? x bs = some (x', h')) : received x' h' = received x h ++ bs := by
  cases x
  case stdin | directory => cases hw
  case stdout | stderr =>
    obtain ⟨s, hs, he⟩ := Option.map_eq_some_iff.mp hw
    cases he
    exact Sink.toList_write? hs
  case file f =>
    simp only [Host.write?] at hw
    split at hw
    case isFalse => cases hw
    case isTrue =>
      cases hw
      simp only [received, Directory.contents?_put, Option.getD_some]
      split
      case isTrue => simp [spliceAt]
      case isFalse =>
        rw [take_spliceAt, Nat.sub_eq_zero_of_le (length_spliceAt ..), List.replicate_zero,
          List.append_nil]

theorem writesWhole_host : WritesWhole received := by
  intro h x bs
  dsimp only [HostInterface.write]
  split
  case h_1 hw => exact received_write? hw
  case h_2 => exact (List.append_nil _).symm

-- What is left of the standard input.
def pending (h : Host) : List Byte :=
  h.stdin.flatMap (·.getD [])

theorem pending_readStdin (h : Host) (n : Nat) :
    (h.readStdin n).1.getD [] ++ pending (h.readStdin n).2 = pending h := by
  unfold Host.readStdin
  split
  case isTrue => rfl
  case isFalse =>
  split
  case h_1 hs => simp [pending, hs]
  case h_2 hs => simp [pending, hs]
  case h_3 chunk rest hs =>
    dsimp only
    split
    case isTrue hleft =>
      have htake : chunk.take n = chunk := by simpa using hleft
      simp [pending, hs, htake]
    case isFalse => simp [pending, hs, ← List.append_assoc]

theorem stdin_write? {h h' : Host} {x x' : Handle} {bs : List Byte}
    (hw : h.write? x bs = some (x', h')) : x' ≠ .stdin ∧ h'.stdin = h.stdin := by
  cases x
  case stdin | directory => cases hw
  case stdout | stderr =>
    obtain ⟨s, _, hs⟩ := Option.map_eq_some_iff.mp hw
    cases hs
    simp
  case file f =>
    simp only [Host.write?] at hw
    split at hw
    case isTrue =>
      cases hw
      simp
    case isFalse => cases hw

theorem stdin_openPath? {h h' : Host} {path : String} {mode : OpenMode} {x : Handle}
    (ho : h.openPath? path mode = some (x, h')) : x ≠ .stdin ∧ h'.stdin = h.stdin := by
  unfold Host.openPath? at ho
  grind

-- The standard input is a stream of which the host has given what is not left of it.
theorem inputStream_stdin (input : List Byte) :
    InputStream Handle.stdin fun c h => input = c ++ pending h where
  read c h n hc := by
    refine ⟨rfl, ?_⟩
    rw [List.append_assoc]
    exact hc.trans (congrArg _ (pending_readStdin h n).symm)
  write c h bs hc := ⟨rfl, hc⟩
  readOther c h y n hy hc := by
    cases y
    case stdin => exact absurd rfl hy
    case stdout | stderr | directory => exact ⟨hy, hc⟩
    case file f =>
      dsimp only [HostInterface.read, Host.read]
      split <;> exact ⟨nofun, hc⟩
  writeOther c h y bs hy hc := by
    dsimp only [HostInterface.write]
    split
    case h_1 hw =>
      have ⟨hne, hstdin⟩ := stdin_write? hw
      exact ⟨hne, by rwa [pending, hstdin]⟩
    case h_2 => exact ⟨hy, hc⟩
  openPath c h path mode hc := by
    dsimp only [HostInterface.openPath]
    split
    case h_1 ho =>
      have ⟨hne, hstdin⟩ := stdin_openPath? ho
      exact ⟨fun h => hne (Option.some.inj h), by rwa [pending, hstdin]⟩
    case h_2 => exact ⟨nofun, hc⟩

end Os

end RV32IM
