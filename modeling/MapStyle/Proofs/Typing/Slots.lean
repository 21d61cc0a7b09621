/-
# `MapStyle.Proofs.Typing.Slots` — the items that checking reads by index

The forms of `MapStyle.Typing` take lists of arguments apart.  Here each of them is written once
more over the items of the whole array, the name at index 0, with every item read by its index: the
arguments at fixed places, the last one, and those in pairs that start at every other index.  The
digits and arguments of color texts are read by index too.  A read that finds nothing yields `none`
and ends the check.

None of these reads ever does: whatever the items are, the tests of their number come first
(`Indexed.form?_reads`), so a document is checked and compiled as before (`Indexed.check_eq`,
`compileIndexed_eq`).  `Indexed.check` reads the items of all arrays and the colors of all texts of
a document, also where no expression and no color is expected.
-/
import Mathlib
import MapStyle.Compiled

namespace MapStyle

/-! ## Parts of a list -/

namespace Indexed

variable {α : Type}

/-- The items from an index on, which may be the end of the list but not behind it. -/
def sliceFrom? (i : Nat) (items : List α) : Option (List α) :=
  if i ≤ items.length then some (items.drop i) else none

/-- The items at an index and the next one. -/
def pairAt? (items : List α) (i : Nat) : Option (α × α) := do
  let a ← items[i]?
  let b ← items[i + 1]?
  pure (a, b)

/-- The items in pairs, one at every other index from `start` on that is below `stop`. -/
def pairs? (start stop : Nat) (items : List α) : Option (List (α × α)) :=
  (List.range' start ((stop - start + 1) / 2) 2).mapM (pairAt? items)

theorem sliceFrom?_cons (a : α) (as : List α) : sliceFrom? 1 (a :: as) = some as :=
  if_pos (Nat.succ_le_succ (Nat.zero_le _))

theorem length_eq_of_inPairs : ∀ {as : List α} {pairs : List (α × α)} {extra : Option α},
    inPairs as = (pairs, extra) → as.length = 2 * pairs.length + extra.toList.length
  | [], _, _, h => by
      cases h
      rfl
  | [_], _, _, h => by
      cases h
      rfl
  | _ :: _ :: rest, _, _, h => by
      cases h
      have hrest := length_eq_of_inPairs (rfl : inPairs rest = _)
      rw [List.length_cons, List.length_cons, List.length_cons, hrest]
      omega

theorem getElem?_of_inPairs : ∀ {as : List α} {pairs : List (α × α)} {last : α},
    inPairs as = (pairs, some last) → as[2 * pairs.length]? = some last
  | [], _, _, h => by cases h
  | [_], _, _, h => by
      cases h
      rfl
  | _ :: _ :: rest, _, last, h => by
      obtain ⟨hpairs, hlast⟩ := Prod.mk.inj h
      have hrest := getElem?_of_inPairs (Prod.ext rfl hlast : inPairs rest = (_, some last))
      rw [← hpairs, List.length_cons, Nat.mul_succ, List.getElem?_cons_succ,
        List.getElem?_cons_succ, hrest]

/-- The items behind `before`, read two by two. -/
theorem mapM_of_inPairs (before : List α) : ∀ {as : List α} {pairs : List (α × α)}
    {extra : Option α}, inPairs as = (pairs, extra) →
      (List.range' before.length pairs.length 2).mapM (pairAt? (before ++ as)) = some pairs
  | [], _, _, h => by
      cases h
      rfl
  | [_], _, _, h => by
      cases h
      rfl
  | a :: b :: rest, _, _, h => by
      cases h
      have hrest := mapM_of_inPairs (before ++ [a, b]) (rfl : inPairs rest = _)
      rw [List.append_assoc, List.length_append] at hrest
      have hfirst : pairAt? (before ++ a :: b :: rest) before.length = some (a, b) := by
        simp [pairAt?]
      rw [List.length_cons, List.range'_succ, List.mapM_cons, hfirst]
      exact congrArg (fun r => r >>= fun ps => pure ((a, b) :: ps)) hrest

theorem pairs?_of_inPairs (before : List α) {as : List α} {pairs : List (α × α)}
    {extra : Option α} (h : inPairs as = (pairs, extra)) {stop : Nat}
    (hstop : stop = before.length + 2 * pairs.length) :
    pairs? before.length stop (before ++ as) = some pairs := by
  have hcount : (stop - before.length + 1) / 2 = pairs.length := by omega
  rw [pairs?, hcount]
  exact mapM_of_inPairs before h

end Indexed

/-! ## Color texts -/

namespace Css

open Indexed

/-- The bytes that hexadecimal digits write: one for each of three or four digits, or for every two
of six or eight. -/
def bytesIndexed? (cs : List Char) : Option (Option (List UInt8)) :=
  if cs.length = 3 ∨ cs.length = 4 then some (cs.mapM fun c => byte? c c)
  else if cs.length = 6 ∨ cs.length = 8 then do
    let pairs ← pairs? 0 cs.length cs
    some (pairs.mapM fun (c, d) => byte? c d)
  else some none

def hexIndexed? (cs : List Char) : Option (Option Color) := do
  match ← bytesIndexed? cs with
  | none => some none
  | some bytes =>
    let r ← bytes[0]?
    let g ← bytes[1]?
    let b ← bytes[2]?
    some (some (Color.ofBytes r g b (bytes[3]?.elim 1 alphaOfByte)))

def hslIndexed? (args : List (List Char)) : Option (Option Color) :=
  if args.length ≠ 3 ∧ args.length ≠ 4 then some none
  else do
    let h ← args[0]?
    let s ← args[1]?
    let l ← args[2]?
    some do
      pure (ofHsl (← finite? h) (← component? 1 s) (← component? 1 l) (← alpha? (args.drop 3)))

def colorIndexed? (s : String) : Option (Option Color) :=
  let cs := (Text.trim s.toList).map Char.toLower
  match Text.after? ['#'] cs with
  | some digits => hexIndexed? digits
  | none =>
    match (arguments? "rgba" cs).or (arguments? "rgb" cs) with
    | some args => some (rgb? args)
    | none =>
      match (arguments? "hsla" cs).or (arguments? "hsl" cs) with
      | some args => hslIndexed? args
      | none => some (named? cs)

theorem bytesIndexed?_of_inPairs {cs : List Char} {pairs : List (Char × Char)}
    (h : inPairs cs = (pairs, none)) (hlen : cs.length = 6 ∨ cs.length = 8) :
    bytesIndexed? cs = some (pairs.mapM fun (c, d) => byte? c d) := by
  have hcount : cs.length = 2 * pairs.length := length_eq_of_inPairs h
  have hpairs : pairs? 0 cs.length cs = some pairs := pairs?_of_inPairs [] h (by simp [hcount])
  rw [bytesIndexed?, if_neg (by omega), if_pos hlen, hpairs]
  rfl

theorem hexIndexed?_eq (cs : List Char) : hexIndexed? cs = some (hex? cs) := by
  match cs with
  | [] => rfl
  | [_] => rfl
  | [_, _] => rfl
  | [r, g, b] =>
      simp only [hexIndexed?, bytesIndexed?, hex?, List.mapM_cons]
      cases byte? r r <;> cases byte? g g <;> cases byte? b b <;> rfl
  | [r, g, b, a] =>
      simp only [hexIndexed?, bytesIndexed?, hex?, List.mapM_cons]
      cases byte? r r <;> cases byte? g g <;> cases byte? b b <;> cases byte? a a <;> rfl
  | [_, _, _, _, _] => rfl
  | [r, r', g, g', b, b'] =>
      have hpairs : inPairs [r, r', g, g', b, b'] = ([(r, r'), (g, g'), (b, b')], none) := rfl
      rw [hexIndexed?, bytesIndexed?_of_inPairs hpairs (.inl rfl), hex?]
      simp only [List.mapM_cons]
      cases byte? r r' <;> cases byte? g g' <;> cases byte? b b' <;> rfl
  | [_, _, _, _, _, _, _] => rfl
  | [r, r', g, g', b, b', a, a'] =>
      have hpairs : inPairs [r, r', g, g', b, b', a, a'] =
          ([(r, r'), (g, g'), (b, b'), (a, a')], none) := rfl
      rw [hexIndexed?, bytesIndexed?_of_inPairs hpairs (.inr rfl), hex?]
      simp only [List.mapM_cons]
      cases byte? r r' <;> cases byte? g g' <;> cases byte? b b' <;> cases byte? a a' <;> rfl
  | _ :: _ :: _ :: _ :: _ :: _ :: _ :: _ :: _ :: _ =>
      rw [hexIndexed?, bytesIndexed?, if_neg (by simp), if_neg (by simp)]
      rfl

theorem hslIndexed?_eq (args : List (List Char)) : hslIndexed? args = some (hsl? args) := by
  match args with
  | [] => rfl
  | [_] => rfl
  | [_, _] => rfl
  | [_, _, _] => rfl
  | [_, _, _, _] => rfl
  | _ :: _ :: _ :: _ :: _ :: _ =>
      rw [hslIndexed?, if_pos (by simp), hsl?, if_pos (by simp)]

/-- Reading a color from a text reads no digit and no argument that is not there. -/
theorem colorIndexed?_eq (s : String) : colorIndexed? s = some (color? s) := by
  rw [colorIndexed?, color?]
  generalize (Text.trim s.toList).map Char.toLower = cs
  cases Text.after? ['#'] cs with
  | some digits => exact hexIndexed?_eq digits
  | none =>
      cases (arguments? "rgba" cs).or (arguments? "rgb" cs) with
      | some args => rfl
      | none =>
          cases (arguments? "hsla" cs).or (arguments? "hsl" cs) with
          | some args => exact hslIndexed?_eq args
          | none => rfl

end Css

/-! ## Forms by index -/

namespace Typing.Indexed

open MapStyle.Indexed

/-- The check of an array by the items of it that are read, `none` when one of them is not there. -/
abbrev Form := List Arg → Option (Context → Reporting (Option Expr))

def scalar : Json → Option (Context → Reporting (Option Expr))
  | .str s => do
    let color ← Css.colorIndexed? s
    some fun ctx =>
      match ctx.expected, color with
      | some .color, some c => literalOf (.color c) ctx
      | some .color, none => ctx.report (.colorText s)
      | _, _ => literalOf (Value.ofJson (.str s)) ctx
  | j => some (literalOf (Value.ofJson j))

/-- A form that goes along its arguments without an index. -/
def along (form : Typing.Form) : Form := fun items => some (form (items.drop 1))

def literal : Form := fun items =>
  if items.length ≠ 2 then some fun ctx => ctx.report (.literalArity (items.length - 1))
  else do
    let value ← items[1]?
    some (literalOf (Value.ofJson value.raw))

/-- A `match` whose parts are known, with `count` arguments. -/
def selectWith (branches : List (Arg × Arg)) (input last : Arg) (count : Nat) (ctx : Context) :
    Reporting (Option Expr) := do
  let (seen, checked) ← Reporting.sweep (nextBranch ctx) ⟨⟨none, []⟩, ctx.expected⟩
    branches.zipIdx
  let input ← input.check (ctx.child 1 seen.labels.ty)
  let otherwise ← last.check (ctx.child count seen.shared)
  match input, otherwise, seen.labels.ty, checked with
  | some input, some otherwise, some inputTy, some checked =>
    pure (some (.select ctx.path (seen.shared.getD otherwise.ty) inputTy input
      seen.labels.table (checked.map (·.1)) (checked.map (·.2)) otherwise))
  | _, _, _, _ => pure none

/-- `["match", input, labels, output, …, otherwise]`. -/
def select : Form := fun items =>
  if items.length < 5 then some fun ctx => ctx.report (.fewArguments (items.length - 1))
  else if items.length % 2 ≠ 1 then some fun ctx => ctx.report .argumentsNotEven
  else do
    let branches ← pairs? 2 (items.length - 1) items
    let input ← items[1]?
    let last ← items[items.length - 1]?
    some (selectWith branches input last (items.length - 1))

def interpolation : Json → Option (Context → Reporting (Option Interpolation))
  | .arr items =>
    if items.isEmpty then some fun ctx => ctx.reportAt [1] .missingInterpolation
    else do
      let name ← items[0]?
      let parameters ← sliceFrom? 1 items
      some (interpolationOf name parameters)
  | _ => some fun ctx => ctx.reportAt [1] .missingInterpolation

/-- A `curve` whose parts are known. -/
def curveWith (interpolation : Context → Reporting (Option Interpolation)) (input : Arg)
    (stops : List (Arg × Arg)) (ctx : Context) : Reporting (Option Expr) := do
  let kind ← interpolation ctx
  let input ← input.check (ctx.child 2 (some .number))
  let (seen, checked) ← Reporting.sweep (nextStop ctx) ⟨ctx.expected, none⟩ stops.zipIdx
  match kind, input, checked with
  | some kind, some input, some stops => curveOf ctx kind input (seen.shared.getD .null) stops
  | _, _, _ => pure none

/-- `["curve", interpolation, input, label, output, …]`. -/
def curve : Form := fun items =>
  if items.length < 5 then some fun ctx => ctx.report (.fewArguments (items.length - 1))
  else if items.length % 2 ≠ 1 then some fun ctx => ctx.report .argumentsNotEven
  else do
    let description ← items[1]?
    let kind ← interpolation description.raw
    let input ← items[2]?
    let stops ← pairs? 3 items.length items
    some (curveWith kind input stops)

/-- A `let` whose parts are known, with `count` arguments. -/
def letInWith (bindings : List (Arg × Arg)) (last : Arg) (count : Nat) (ctx : Context) :
    Reporting (Option Expr) := do
  let (_, checked) ← Reporting.sweep
    (fun (_ : Unit) binding => do pure ((), ← nextBinding ctx binding)) () bindings.zipIdx
  match checked with
  | none => pure none
  | some bound =>
    let body ← last.check (ctx.childWith count (bound.map fun (name, e) => (name, e.ty)))
    pure (body.map fun body => .letIn ctx.path (bound.map (·.1)) (bound.map (·.2)) body)

/-- `["let", name, value, …, body]`. -/
def letIn : Form := fun items =>
  if items.length < 4 then some fun ctx => ctx.report (.fewBindingArguments (items.length - 1))
  else if items.length % 2 ≠ 0 then some fun ctx => ctx.report .argumentsNotOdd
  else do
    let bindings ← pairs? 1 (items.length - 1) items
    let last ← items[items.length - 1]?
    some (letInWith bindings last (items.length - 1))

/-- The item type and the length of an array assertion; each is `none` when what is written there
is not one. -/
def arrayParameters? (items : List Arg) : Option (Option Ty × Option (Option Nat)) := do
  let item ← if 2 < items.length then (items[1]?).map fun arg => itemTy? arg.raw
    else some (some .value)
  let len ← if 3 < items.length then (items[2]?).map fun arg => (length? arg.raw).map some
    else some (some none)
  some (item, len)

/-- `["array", item?, length?, input]`. -/
def arrayAssertion : Form := fun items =>
  if items.length < 2 ∨ 4 < items.length then
    some fun ctx => ctx.report (.arrayArity (items.length - 1))
  else do
    let parameters ← arrayParameters? items
    let input ← items[items.length - 1]?
    some fun ctx =>
      match parameters with
      | (some item, some len) => arrayOf item len input (items.length - 1) ctx
      | (none, _) => ctx.reportAt [1] .arrayItem
      | (some _, none) => ctx.reportAt [2] .arrayLength

def call (fn : Builtin) : Form := fun items => do
  let args ← sliceFrom? 1 items
  some (Typing.call fn args)

def form? (name : String) : Option Form :=
  match name with
  | "literal" => some literal
  | "coalesce" => some (along coalesce)
  | "match" => some select
  | "curve" => some curve
  | "let" => some letIn
  | "var" => some (along var)
  | "number" => some (along (assertion .number))
  | "string" => some (along (assertion .string))
  | "boolean" => some (along (assertion .boolean))
  | "object" => some (along (assertion .object))
  | "array" => some arrayAssertion
  | name => (Builtin.ofName? name).map call

def applied : Form
  | [] => some fun ctx => ctx.report .emptyArray
  | head :: args =>
    match head.raw.str? with
    | none => some fun ctx => ctx.reportAt [0] (.nameNotString head.raw.kind)
    | some name =>
      match form? name with
      | none => some fun ctx => ctx.reportAt [0] (.unknownExpression name)
      | some form => form (head :: args)

mutual

def check : Json → Option (Context → Reporting (Option Expr))
  | .null => some (settled (Typing.scalar .null))
  | .bool b => some (settled (Typing.scalar (.bool b)))
  | .num n => some (settled (Typing.scalar (.num n)))
  | .str s => do
    let p ← scalar (.str s)
    some (settled p)
  | .arr items => do
    let args ← checks items
    let p ← applied args
    some (settled p)
  | .obj _ => some fun ctx => ctx.report .bareObject

def checks : List Json → Option (List Arg)
  | [] => some []
  | j :: js => do
    let p ← check j
    let args ← checks js
    some (⟨j, p⟩ :: args)

end

/-! ## Nothing is read that is not there -/

/-- A form by index finds all the items that it reads, and checks what the form checks. -/
def Reads (form : Typing.Form) (indexed : Form) : Prop :=
  ∀ head args, indexed (head :: args) = some (form args)

theorem scalar_eq (j : Json) : scalar j = some (Typing.scalar j) := by
  cases j with
  | str s =>
      rw [scalar, Css.colorIndexed?_eq]
      refine congrArg some (funext fun ctx => ?_)
      cases hexpected : ctx.expected with
      | none => simp only [Typing.scalar, hexpected]
      | some t =>
          cases t with
          | color => cases hcolor : Css.color? s <;> simp only [Typing.scalar, hexpected, hcolor]
          | _ => simp only [Typing.scalar, hexpected]
  | _ => rfl

theorem along_reads (form : Typing.Form) : Reads form (along form) := fun _ _ => rfl

theorem literal_reads : Reads Typing.literal literal := by
  intro head args
  match args with
  | [] => rfl
  | [_] => rfl
  | _ :: _ :: _ => exact if_pos (by simp)

theorem select_reads : Reads Typing.select select := by
  intro head args
  cases args with
  | nil => rfl
  | cons input rest =>
      rw [select]
      by_cases hlen : (head :: input :: rest).length < 5
      · rw [if_pos hlen]
        refine congrArg some (funext fun ctx => ?_)
        rw [Typing.select, if_pos (Nat.lt_of_succ_lt_succ hlen)]
        rfl
      · have hargs : ¬ (input :: rest).length < 4 := fun h => hlen (Nat.succ_lt_succ h)
        rw [if_neg hlen]
        simp only [List.length_cons]
        -- The form asks whether an argument is left over, the reads ask for the parity first.
        rcases hpairs : inPairs rest with ⟨branches, _ | last⟩
        · have hcount : rest.length = 2 * branches.length := length_eq_of_inPairs hpairs
          rw [if_pos (by omega)]
          refine congrArg some (funext fun ctx => ?_)
          simp only [Typing.select, if_neg hargs, hpairs]
        · have hcount : rest.length = 2 * branches.length + 1 := length_eq_of_inPairs hpairs
          have hbranches : pairs? 2 (rest.length + 1 + 1 - 1) (head :: input :: rest) =
              some branches := pairs?_of_inPairs [head, input] hpairs (by simp; omega)
          have hlast : (head :: input :: rest)[rest.length + 1 + 1 - 1]? = some last := by
            rw [← getElem?_of_inPairs hpairs, hcount]
            rfl
          rw [if_neg (by omega), hbranches, hlast]
          refine congrArg some (funext fun ctx => ?_)
          simp only [Typing.select, if_neg hargs, hpairs]
          rfl

theorem interpolation_eq (j : Json) : interpolation j = some (Typing.interpolation j) := by
  cases j with
  | arr items =>
      cases items with
      | nil => rfl
      | cons name parameters =>
          simp only [interpolation, List.isEmpty_cons, Bool.false_eq_true, if_false,
            sliceFrom?_cons]
          rfl
  | _ => rfl

theorem curve_reads : Reads Typing.curve curve := by
  intro head args
  match args with
  | [] => rfl
  | [_] => rfl
  | description :: input :: rest =>
      rw [curve]
      by_cases hlen : (head :: description :: input :: rest).length < 5
      · rw [if_pos hlen]
        refine congrArg some (funext fun ctx => ?_)
        rw [Typing.curve, if_pos (Nat.lt_of_succ_lt_succ hlen)]
        rfl
      · have hargs : ¬ (description :: input :: rest).length < 4 :=
          fun h => hlen (Nat.succ_lt_succ h)
        rw [if_neg hlen]
        simp only [List.length_cons]
        rcases hpairs : inPairs rest with ⟨stops, _ | last⟩
        · have hcount : rest.length = 2 * stops.length := length_eq_of_inPairs hpairs
          have hstops : pairs? 3 (rest.length + 1 + 1 + 1)
              (head :: description :: input :: rest) = some stops :=
            pairs?_of_inPairs [head, description, input] hpairs (by simp; omega)
          have hkind := interpolation_eq description.raw
          rw [if_neg (by omega)]
          simp only [List.getElem?_cons_succ, List.getElem?_cons_zero, Option.bind_eq_bind,
            Option.bind_some, hkind, hstops]
          refine congrArg some (funext fun ctx => ?_)
          simp only [Typing.curve, if_neg hargs, hpairs]
          rfl
        · have hcount : rest.length = 2 * stops.length + 1 := length_eq_of_inPairs hpairs
          rw [if_pos (by omega)]
          refine congrArg some (funext fun ctx => ?_)
          simp only [Typing.curve, if_neg hargs, hpairs]

theorem letIn_reads : Reads Typing.letIn letIn := by
  intro head args
  rw [letIn]
  by_cases hlen : (head :: args).length < 4
  · rw [if_pos hlen]
    refine congrArg some (funext fun ctx => ?_)
    rw [Typing.letIn, if_pos (Nat.lt_of_succ_lt_succ hlen)]
    rfl
  · have hargs : ¬ args.length < 3 := fun h => hlen (Nat.succ_lt_succ h)
    rw [if_neg hlen]
    simp only [List.length_cons]
    rcases hpairs : inPairs args with ⟨bindings, _ | last⟩
    · have hcount : args.length = 2 * bindings.length := length_eq_of_inPairs hpairs
      rw [if_pos (by omega)]
      refine congrArg some (funext fun ctx => ?_)
      simp only [Typing.letIn, if_neg hargs, hpairs]
    · have hcount : args.length = 2 * bindings.length + 1 := length_eq_of_inPairs hpairs
      have hbindings : pairs? 1 (args.length + 1 - 1) (head :: args) = some bindings :=
        pairs?_of_inPairs [head] hpairs (by simp; omega)
      have hlast : (head :: args)[args.length + 1 - 1]? = some last := by
        rw [← getElem?_of_inPairs hpairs, hcount]
        rfl
      rw [if_neg (by omega), hbindings, hlast]
      refine congrArg some (funext fun ctx => ?_)
      simp only [Typing.letIn, if_neg hargs, hpairs]
      rfl

theorem arrayAssertion_reads : Reads Typing.arrayAssertion arrayAssertion := by
  intro head args
  match args with
  | [] => rfl
  | [_] => rfl
  | [item, _] =>
      refine congrArg some (funext fun ctx => ?_)
      simp only [Typing.arrayAssertion]
      cases itemTy? item.raw <;> rfl
  | [item, len, _] =>
      refine congrArg some (funext fun ctx => ?_)
      simp only [Typing.arrayAssertion]
      cases itemTy? item.raw <;> cases length? len.raw <;> rfl
  | _ :: _ :: _ :: _ :: _ => exact if_pos (by simp)

theorem call_reads (fn : Builtin) : Reads (Typing.call fn) (call fn) := by
  intro head args
  rw [call, sliceFrom?_cons]
  rfl

/-- A name begins a form by index just when it begins a form, and what that reads is there. -/
theorem form?_reads (name : String) : Option.Rel Reads (Typing.form? name) (form? name) := by
  unfold Typing.form?
  split
  · exact .some literal_reads
  · exact .some (along_reads _)
  · exact .some select_reads
  · exact .some curve_reads
  · exact .some letIn_reads
  · exact .some (along_reads _)
  · exact .some (along_reads _)
  · exact .some (along_reads _)
  · exact .some (along_reads _)
  · exact .some (along_reads _)
  · exact .some arrayAssertion_reads
  · have hform : form? name = (Builtin.ofName? name).map call := by
      unfold form?
      split <;> first | exact absurd rfl ‹_› | rfl
    rw [hform]
    cases Builtin.ofName? name with
    | none => exact .none
    | some fn => exact .some (call_reads fn)

theorem applied_eq (items : List Arg) : applied items = some (Typing.applied items) := by
  cases items with
  | nil => rfl
  | cons head args =>
      show applied (head :: args) = some fun ctx => Typing.applied (head :: args) ctx
      simp only [applied, Typing.applied]
      cases head.raw.str? with
      | none => rfl
      | some name =>
          dsimp only
          have hreads := form?_reads name
          generalize Typing.form? name = form at hreads ⊢
          generalize form? name = indexed at hreads ⊢
          cases hreads with
          | none => rfl
          | some h => exact h head args

mutual

/-- Checking a document reads no item that is not there. -/
theorem check_eq : ∀ j : Json, check j = some (Typing.check j)
  | .null => rfl
  | .bool _ => rfl
  | .num _ => rfl
  | .str s => by
      rw [check, scalar_eq]
      rfl
  | .arr items => by
      rw [check, checks_eq items]
      show (applied (Typing.checks items) >>= fun p => some (settled p)) = _
      rw [applied_eq]
      rfl
  | .obj _ => rfl

theorem checks_eq : ∀ js : List Json, checks js = some (Typing.checks js)
  | [] => rfl
  | j :: js => by
      rw [checks, check_eq j, checks_eq js]
      rfl

end

end Typing.Indexed

/-- Compiles a document, reading items by index; `none` when one is read that is not there. -/
def compileIndexed (j : Json) (expected : Option Ty) (interpolators : Interpolators) :
    Option (Except (List Diagnostic) Compiled) := do
  let p ← Typing.Indexed.check j
  some <| match (p (.root expected interpolators)).run [] with
    | (some e, []) => .ok ⟨e, interpolators⟩
    | (_, ds) => .error ds

theorem compileIndexed_eq (j : Json) (expected : Option Ty) (interpolators : Interpolators) :
    compileIndexed j expected interpolators = some (compile j expected interpolators) := by
  rw [compileIndexed, Typing.Indexed.check_eq]
  rfl

end MapStyle
