/-
Blank space around texts.

`isBlank` is the Unicode property White_Space; `trim` removes such characters at both ends.
-/
namespace MapStyle.Text

/-- The Unicode property White_Space. -/
def isBlank (c : Char) : Bool :=
  let n := c.toNat
  (0x9 ≤ n && n ≤ 0xD) || n == 0x20 || n == 0x85 || n == 0xA0 || n == 0x1680
    || (0x2000 ≤ n && n ≤ 0x200A) || n == 0x2028 || n == 0x2029 || n == 0x202F || n == 0x205F
    || n == 0x3000

/-- The characters from the first one that is not blank. -/
def trimStart (cs : List Char) : List Char := cs.dropWhile isBlank

/-- The characters up to the last one that is not blank. -/
def trimEnd (cs : List Char) : List Char := (cs.reverse.dropWhile isBlank).reverse

def trim (cs : List Char) : List Char := trimEnd (trimStart cs)

theorem length_trim_le (cs : List Char) : (trim cs).length ≤ cs.length := by
  have start : ∀ ds : List Char, (ds.dropWhile isBlank).length ≤ ds.length :=
    fun ds => (List.dropWhile_sublist isBlank).length_le
  simpa [trim, trimEnd] using
    Nat.le_trans (start (trimStart cs).reverse) (by simpa [trimStart] using start cs)

/-- What stands after `start` in a text that begins with it. -/
def after? : List Char → List Char → Option (List Char)
  | [], cs => some cs
  | _ :: _, [] => none
  | p :: ps, c :: cs => if p = c then after? ps cs else none

theorem after?_eq_some_iff {start cs rest : List Char} :
    after? start cs = some rest ↔ cs = start ++ rest := by
  induction start generalizing cs with
  | nil => simp [after?]
  | cons p ps ih =>
    cases cs with
    | nil => simp [after?]
    | cons c cs => by_cases h : p = c <;> simp [after?, h, ih, @eq_comm _ c]

/-- What stands before the final `c` of a text that ends in it. -/
def before? (c : Char) (cs : List Char) : Option (List Char) :=
  match cs.reverse with
  | d :: rest => if d = c then some rest.reverse else none
  | [] => none

theorem before?_eq_some_iff {c : Char} {cs rest : List Char} :
    before? c cs = some rest ↔ cs = rest ++ [c] := by
  rw [← List.reverse_inj, List.reverse_append, List.reverse_singleton]
  unfold before?
  cases cs.reverse with
  | nil => simp
  | cons d ds =>
    by_cases h : d = c <;> simp [h, List.reverse_eq_iff]

/-- The pieces of a text between its commas; always at least one. -/
def splitCommas : List Char → List (List Char)
  | [] => [[]]
  | c :: cs =>
    if c = ',' then [] :: splitCommas cs
    else match splitCommas cs with
      | [] => [[c]]
      | piece :: rest => (c :: piece) :: rest

/-- Whether `needle` occurs in the text. -/
def occursIn (needle : List Char) : List Char → Bool
  | [] => needle.isEmpty
  | c :: cs => needle.isPrefixOf (c :: cs) || occursIn needle cs

end MapStyle.Text
