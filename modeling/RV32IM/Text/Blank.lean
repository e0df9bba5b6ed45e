-- White space: the characters with the Unicode property of that name, and the removal of such
-- characters from the ends of a text.

namespace RV32IM.Text

-- White space, by the Unicode property `White_Space`.
def isBlank (c : Char) : Bool :=
  let n := c.toNat
  (0x09 ≤ n && n ≤ 0x0D) || n == 0x20 || n == 0x85 || n == 0xA0 || n == 0x1680 ||
    (0x2000 ≤ n && n ≤ 0x200A) || n == 0x2028 || n == 0x2029 || n == 0x202F || n == 0x205F ||
    n == 0x3000

def trimStart (cs : List Char) : List Char :=
  cs.dropWhile isBlank

def trimEnd (cs : List Char) : List Char :=
  (cs.reverse.dropWhile isBlank).reverse

def trim (cs : List Char) : List Char :=
  trimEnd (trimStart cs)

-- Lower case, for the letters of ASCII alone.
def lower (cs : List Char) : List Char :=
  cs.map Char.toLower

-- What follows `start` in `cs`, if `cs` starts with it.
def dropStart? (start cs : List Char) : Option (List Char) :=
  if start.isPrefixOf cs then some (cs.drop start.length) else none

-- What precedes the last character of `cs`, if that is `c`.
def dropLast? (c : Char) (cs : List Char) : Option (List Char) :=
  if cs.getLast? = some c then some cs.dropLast else none

-- The parts before and after the first character that satisfies `p`; the character is dropped.
def splitFirst? (p : Char → Bool) : List Char → Option (List Char × List Char)
  | [] => none
  | c :: cs => if p c then some ([], cs) else (splitFirst? p cs).map fun (a, b) => (c :: a, b)

theorem length_splitFirst? {p : Char → Bool} {cs a b : List Char}
    (h : splitFirst? p cs = some (a, b)) : a.length + b.length + 1 = cs.length := by
  induction cs generalizing a with
  | nil => simp [splitFirst?] at h
  | cons c cs ih =>
    simp only [splitFirst?] at h
    split at h
    · simp only [Option.some.injEq, Prod.mk.injEq] at h
      obtain ⟨rfl, rfl⟩ := h
      simp
    · simp only [Option.map_eq_some_iff, Prod.exists, Prod.mk.injEq] at h
      obtain ⟨a', b', h', rfl, rfl⟩ := h
      have := ih h'
      simp only [List.length_cons]
      omega

theorem length_trim_le (cs : List Char) : (trim cs).length ≤ cs.length := by
  have h₁ : (trimStart cs).length ≤ cs.length :=
    (List.dropWhile_sublist _).length_le
  have h₂ : (trimEnd (trimStart cs)).length ≤ (trimStart cs).length := by
    have := ((List.dropWhile_sublist (l := (trimStart cs).reverse) isBlank)).length_le
    simpa [trimEnd] using this
  exact Nat.le_trans h₂ h₁

end RV32IM.Text
