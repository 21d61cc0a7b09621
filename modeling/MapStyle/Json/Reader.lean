/-
JSON texts.

A text is cut into tokens; a machine with a stack of open arrays and objects then takes one token
after the other.  Nesting deeper than `maxDepth` is refused, as is anything after the document.
-/
import MapStyle.Json.Numeral
import MapStyle.Text.Blank

namespace MapStyle.JsonText

/-- The pieces of a JSON text. -/
inductive Token where
  | openArray
  | closeArray
  | openObject
  | closeObject
  | comma
  | colon
  | text (s : String)
  | atom (j : Json)

def hexDigit? (c : Char) : Option Nat :=
  if c.isDigit then some (c.toNat - 48)
  else if 'a' ≤ c ∧ c ≤ 'f' then some (c.toNat - 87)
  else if 'A' ≤ c ∧ c ≤ 'F' then some (c.toNat - 55)
  else none

def hexQuad? (a b c d : Char) : Option Nat := do
  pure ((((← hexDigit? a) * 16 + (← hexDigit? b)) * 16 + (← hexDigit? c)) * 16 + (← hexDigit? d))

/-- The character of an escape of one letter. -/
def escaped? (c : Char) : Option Char :=
  [(0x22, 0x22), (0x5C, 0x5C), (0x2F, 0x2F), (0x62, 0x8), (0x66, 0xC), (0x6E, 0xA), (0x72, 0xD),
    (0x74, 0x9)].lookup c.toNat |>.map Char.ofNat

/-- The first half of a surrogate pair. -/
def isHighSurrogate (n : Nat) : Bool := 0xD800 ≤ n && n ≤ 0xDBFF

/-- The second half of a surrogate pair. -/
def isLowSurrogate (n : Nat) : Bool := 0xDC00 ≤ n && n ≤ 0xDFFF

def joinSurrogates (high low : Nat) : Char :=
  Char.ofNat (0x10000 + (high - 0xD800) * 0x400 + (low - 0xDC00))

/-- Reads the rest of a string up to its closing quotation mark.  Control characters and halves
of surrogate pairs that stand alone are refused. -/
def string? : List Char → Option (List Char × List Char)
  | [] => none
  | c :: cs =>
    if c.toNat = 0x22 then some ([], cs)
    else if c.toNat < 0x20 then none
    else if c.toNat ≠ 0x5C then (string? cs).map fun (s, rest) => (c :: s, rest)
    else match cs with
      | 'u' :: h₁ :: h₂ :: h₃ :: h₄ :: more =>
        match hexQuad? h₁ h₂ h₃ h₄ with
        | none => none
        | some n =>
          if isHighSurrogate n then
            match more with
            | b :: 'u' :: l₁ :: l₂ :: l₃ :: l₄ :: rest =>
              match hexQuad? l₁ l₂ l₃ l₄ with
              | none => none
              | some m =>
                if b.toNat = 0x5C ∧ isLowSurrogate m then
                  (string? rest).map fun (s, tail) => (joinSurrogates n m :: s, tail)
                else none
            | _ => none
          else if isLowSurrogate n then none
          else (string? more).map fun (s, tail) => (Char.ofNat n :: s, tail)
      | e :: more =>
        match escaped? e with
        | none => none
        | some d => (string? more).map fun (s, tail) => (d :: s, tail)
      | [] => none

def punctuation? (c : Char) : Option Token :=
  match c.toNat with
  | 0x5B => some .openArray
  | 0x5D => some .closeArray
  | 0x7B => some .openObject
  | 0x7D => some .closeObject
  | 0x2C => some .comma
  | 0x3A => some .colon
  | _ => none

def isSpace (c : Char) : Bool := [0x20, 0xA, 0x9, 0xD].contains c.toNat

def word? (cs : List Char) : Option (Json × List Char) :=
  [("null", Json.null), ("true", .bool true), ("false", .bool false)].findSome? fun (word, j) =>
    (Text.after? word.toList cs).map fun rest => (j, rest)

/-- The token at the front of a text that does not begin with a blank. -/
def token? (c : Char) (cs : List Char) : Option (Token × List Char) :=
  match punctuation? c with
  | some t => some (t, cs)
  | none =>
    if c.toNat = 0x22 then (string? cs).map fun (s, rest) => (.text (String.ofList s), rest)
    else if c.isDigit ∨ c = '-' then
      (JsonNumeral.read? (c :: cs)).map fun (n, rest) => (.atom (.num n), rest)
    else (word? (c :: cs)).map fun (j, rest) => (.atom j, rest)

/-- The tokens of a text; every one takes at least a character, so `fuel` is its length. -/
def tokensWithin : Nat → List Char → Option (List Token)
  | _, [] => some []
  | 0, _ :: _ => none
  | fuel + 1, c :: cs =>
    if isSpace c then tokensWithin fuel cs
    else match token? c cs with
      | none => none
      | some (t, rest) => (tokensWithin fuel rest).map (t :: ·)

def tokens? (s : String) : Option (List Token) :=
  let cs := s.toList
  tokensWithin cs.length cs

/-- An array or object that is still open, its parts in reverse. -/
inductive Frame where
  | items (done : List Json)
  | members (done : List (String × Json)) (key : String)

/-- What may come next. -/
inductive Mode where
  /-- A document, or the end of an array that has just begun. -/
  | value (mayClose : Bool)
  /-- A key, or the end of an object that has just begun. -/
  | key (mayClose : Bool)
  | colon
  /-- A comma or the end of the innermost frame. -/
  | next
  | finished (j : Json)

/-- The machine between two tokens. -/
structure State where
  stack : List Frame
  mode : Mode

/-- The greatest number of arrays and objects open at once. -/
def maxDepth : Nat := 127

/-- The machine after a complete document. -/
def deliver (j : Json) : List Frame → State
  | [] => ⟨[], .finished j⟩
  | .items done :: rest => ⟨.items (j :: done) :: rest, .next⟩
  | .members done key :: rest => ⟨.members ((key, j) :: done) key :: rest, .next⟩

/-- The object of members in the order in which they were written.  An object inside another
document gets its keys in ascending order, the last of two members with one key taken. -/
def objectOf (members : List (String × Json)) (inside : Bool) : Json :=
  .obj (if inside then Dict.ofEntries members else members)

/-- The machine after the end of the innermost frame. -/
def close : List Frame → Option State
  | [] => none
  | .items done :: rest => some (deliver (.arr done.reverse) rest)
  | .members done _ :: rest => some (deliver (objectOf done.reverse (!rest.isEmpty)) rest)

def push (stack : List Frame) (frame : Frame) (mode : Mode) : Option State :=
  if stack.length < maxDepth then some ⟨frame :: stack, mode⟩ else none

def inArray : List Frame → Bool
  | .items _ :: _ => true
  | _ => false

def inObject : List Frame → Bool
  | .members _ _ :: _ => true
  | _ => false

def afterComma : List Frame → Option State
  | [] => none
  | .items done :: rest => some ⟨.items done :: rest, .value false⟩
  | .members done key :: rest => some ⟨.members done key :: rest, .key false⟩

def takeKey (s : String) : List Frame → Option State
  | .members done _ :: rest => some ⟨.members done s :: rest, .colon⟩
  | _ => none

def step (st : State) (t : Token) : Option State :=
  match st.mode, t with
  | .value _, .atom j => some (deliver j st.stack)
  | .value _, .text s => some (deliver (.str s) st.stack)
  | .value _, .openArray => push st.stack (.items []) (.value true)
  | .value _, .openObject => push st.stack (.members [] "") (.key true)
  | .value true, .closeArray => close st.stack
  | .key _, .text s => takeKey s st.stack
  | .key true, .closeObject => close st.stack
  | .colon, .colon => some ⟨st.stack, .value false⟩
  | .next, .comma => afterComma st.stack
  | .next, .closeArray => if inArray st.stack then close st.stack else none
  | .next, .closeObject => if inObject st.stack then close st.stack else none
  | _, _ => none

end JsonText

/-- The document of a text; if it is an object, its own members stand in the order in which they
are written, repetitions included. -/
def Json.readAsWritten? (s : String) : Option Json := do
  let tokens ← JsonText.tokens? s
  let last ← tokens.foldlM JsonText.step ⟨[], .value false⟩
  match last.mode with
  | .finished j => some j
  | _ => none

def Json.read? (s : String) : Option Json :=
  (Json.readAsWritten? s).map fun j =>
    match j with
    | .obj members => .obj (Dict.ofEntries members)
    | j => j

end MapStyle
