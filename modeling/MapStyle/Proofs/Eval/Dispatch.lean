/-
# `MapStyle.Proofs.Eval.Dispatch` — a `match` is a typed linear search

A `match` looks the text of its input up in a table.  Here it is shown to do what a search through
the branches as they are written would do: it goes on with the one branch that has a label equal to
the input, or with the last case, and fails if the input is not of the type of the labels
(`select_searches`).

What a rule asks for on its way is recorded by `Rule.asked`, so that it can be said that a `match`
evaluates its input and at most one thing more.
-/
import MapStyle.Proofs.Eval.Outcomes
import MapStyle.Proofs.Typing.Expected
import MapStyle.Proofs.Typing.Sources

namespace MapStyle

open Reporting Typing

/-! ## What a rule asks for -/

namespace Rule

variable {α β : Type} {operands : List (Evaluation Value)}

/-- The operands that a rule asks for when it is followed from a state, in order. -/
def asked (operands : List (Evaluation Value)) : Rule α → EvalState → List Nat
  | done _, _ => []
  | ask i next, st =>
    match operands[i]? with
    | some operand => i :: asked operands (next (operand st).1) (operand st).2
    | none => [i]
  | ease p next, st =>
    asked operands (next (st.easings.easing p).1) ⟨st.scope, (st.easings.easing p).2⟩

/-- A block is followed step by step, up to the first error. -/
theorem run_bind (rule : Rule α) (f : α → Rule β) (st : EvalState) :
    (rule >>= f).run operands st =
      match rule.run operands st with
      | (.ok a, after) => (f a).run operands after
      | (.error e, after) => (.error e, after) := by
  show (rule.bind f).run operands st = _
  induction rule generalizing st with
  | done r =>
      cases r with
      | ok a => rfl
      | error e => rfl
  | ask i next ih =>
      rw [bind, run, run]
      cases operands[i]? with
      | none => rfl
      | some operand => exact ih _ _
  | ease p next ih =>
      rw [bind, run, run]
      exact ih _ _

theorem asked_bind (rule : Rule α) (f : α → Rule β) (st : EvalState) :
    (rule >>= f).asked operands st = rule.asked operands st ++
      match rule.run operands st with
      | (.ok a, after) => (f a).asked operands after
      | (.error _, _) => [] := by
  show (rule.bind f).asked operands st = _
  induction rule generalizing st with
  | done r =>
      cases r with
      | ok a => rfl
      | error e => rfl
  | ask i next ih =>
      rw [bind, asked, asked, run]
      cases operands[i]? with
      | none => rfl
      | some operand => exact congrArg (i :: ·) (ih _ _)
  | ease p next ih =>
      rw [bind, asked, asked, run]
      exact ih _ _

variable {i : Nat} {operand : Evaluation Value} (h : operands[i]? = some operand)

include h

theorem run_operand (st : EvalState) : (Rule.operand i).run operands st = operand st := by
  rw [Rule.operand, run, h]
  rfl

theorem asked_operand (st : EvalState) : (Rule.operand i).asked operands st = [i] := by
  rw [Rule.operand, asked, h]
  rfl

end Rule

/-! ## Branches by the table -/

namespace Expr

variable {scene : Scene} {st st' : EvalState} {p : Path} {t inputTy : Ty} {input otherwise : Expr}
  {table : Dict Nat} {labels : List (List Label)} {outputs : List Expr} {r : Outcome Value}
  {v : Value}

/-- The parts that the evaluation of a `match` evaluates, in order. -/
def consulted (scene : Scene) (inputTy : Ty) (input : Expr) (table : Dict Nat)
    (outputs : List Expr) (otherwise : Expr) (st : EvalState) : List Expr :=
  let parts := input :: otherwise :: outputs
  ((selectRule inputTy table).asked (evalEach scene parts) st).filterMap fun i => parts[i]?

theorem getElem?_evalEach (scene : Scene) {es : List Expr} {i : Nat} {e : Expr}
    (h : es[i]? = some e) : (evalEach scene es)[i]? = some (eval scene e) := by
  rw [evalEach_eq_map, List.getElem?_map, h]
  rfl

/-- Once the input is evaluated, its text decides how a `match` goes on. -/
theorem follow_selectRule (table : Dict Nat) {operands : List (Evaluation Value)}
    {operand : Evaluation Value} (h0 : operands[0]? = some operand)
    (hinput : operand st = (r, st')) {text : Outcome String}
    (hkey : (r >>= key inputTy) = text) :
    (selectRule inputTy table).run operands st = (goOn table text).run operands st' ∧
      (selectRule inputTy table).asked operands st =
        0 :: (goOn table text).asked operands st' := by
  subst hkey
  rw [selectRule_eq, Rule.run_bind, Rule.asked_bind, Rule.run_operand h0, Rule.asked_operand h0,
    hinput]
  cases r with
  | error e => exact ⟨rfl, rfl⟩
  | ok w => exact ⟨rfl, rfl⟩

variable (hinput : input.eval scene st = (r, st'))

include hinput

/-- A `match` whose input fails, or is refused, comes to the error and evaluates nothing else. -/
theorem select_error {err : EvalError} (hkey : (r >>= key inputTy) = .error err) :
    eval scene (.select p t inputTy input table labels outputs otherwise) st = (.error err, st') ∧
      consulted scene inputTy input table outputs otherwise st = [input] := by
  have h0 : (evalEach scene (input :: otherwise :: outputs))[0]? = some (eval scene input) := rfl
  obtain ⟨hrun, hasked⟩ := follow_selectRule table h0 hinput hkey
  refine ⟨hrun, ?_⟩
  rw [consulted, hasked]
  rfl

/-- A `match` whose input has a text goes on with the part that the table has for it. -/
theorem select_part {text : String} (hkey : (r >>= key inputTy) = .ok text) {e : Expr}
    (he : (input :: otherwise :: outputs)[part table text]? = some e) :
    eval scene (.select p t inputTy input table labels outputs otherwise) st = e.eval scene st' ∧
      consulted scene inputTy input table outputs otherwise st = [input, e] := by
  have h0 : (evalEach scene (input :: otherwise :: outputs))[0]? = some (eval scene input) := rfl
  obtain ⟨hrun, hasked⟩ := follow_selectRule table h0 hinput hkey
  have hpart := getElem?_evalEach scene he
  refine ⟨hrun.trans (Rule.run_operand hpart st'), ?_⟩
  rw [consulted, hasked, goOn, Rule.asked_operand hpart]
  exact congrArg (input :: ·) (List.filterMap_cons_some he)

end Expr

/-! ## Labels as they are written -/

namespace Typing

/-- A value equals a label of a branch: a string one of its strings, or a number one of its
numbers. -/
def HasLabel (branch : Json) (v : Value) : Prop :=
  ∃ l ∈ labelItems branch, (Value.ofJson l).same v = true

theorem hasLabel_iff_any {branch : Json} {v : Value} : HasLabel branch v ↔
    ((labelItems branch).any fun l => (Value.ofJson l).same v) = true := by
  rw [List.any_eq_true, HasLabel]

section Labels

variable {branch : Json} {ls : List Label} {v : Value}

theorem HasLabel.exists_label (h : HasLabel branch v)
    (hlabels : (labelItems branch).map labelOf? = ls.map some) :
    ∃ j, ∃ l ∈ ls, labelOf? j = some l ∧ (Value.ofJson j).same v = true := by
  obtain ⟨j, hj, hsame⟩ := h
  have hmem : labelOf? j ∈ ls.map some := hlabels ▸ List.mem_map_of_mem hj
  obtain ⟨l, hl, hlabel⟩ := List.mem_map.1 hmem
  exact ⟨j, l, hl, hlabel.symm, hsame⟩

theorem HasLabel.typeOf {t : Ty} (h : HasLabel branch v)
    (hlabels : (labelItems branch).map labelOf? = ls.map some) (hty : ∀ l ∈ ls, l.ty = t) :
    v.typeOf = t := by
  obtain ⟨j, l, hl, hlabel, hsame⟩ := h.exists_label hlabels
  rw [← hty l hl]
  exact typeOf_of_same hlabel hsame

/-- Only whole numbers equal a label, so neither fractions nor NaN nor infinities do. -/
theorem HasLabel.isWhole {x : Float} (h : HasLabel branch (.number x))
    (hlabels : (labelItems branch).map labelOf? = ls.map some) : isWhole x = true := by
  obtain ⟨j, l, _, hlabel, hsame⟩ := h.exists_label hlabels
  cases j with
  | num n =>
      have hwhole : MapStyle.isWhole n.toFloat = true := by
        have hwell := wellFormed_labelOf? hlabel
        cases labelOf?_num hlabel
        exact hwell.2
      have hbeq : (n.toFloat == x) = true := hsame
      rw [← isWhole_unsigned, ← unsigned_eq_of_beq hbeq, isWhole_unsigned]
      exact hwhole
  | str s => cases hsame
  | _ => cases hlabel

end Labels

/-! ## Parts of a `match` -/

/-- Branches of a `match` as they are written, and the labels and outputs that they were checked to,
index by index. -/
structure ChecksBranches (r : Interpolators) (p : Path) (branches : List (Json × Json))
    (labels : List (List Label)) (outputs : List Expr) : Prop where
  countLabels : labels.length = branches.length
  countOutputs : outputs.length = branches.length
  atLabels : ∀ (k : Nat) (b : Json × Json) (ls : List Label), branches[k]? = some b →
    labels[k]? = some ls → (labelItems b.1).map labelOf? = ls.map some
  atOutput : ∀ (k : Nat) (b : Json × Json) (o : Expr), branches[k]? = some b →
    outputs[k]? = some o → ChecksAt r (p ++ [2 * k + 3]) b.2 o

/-- The parts of a `match` in a document, and those of the node that it was checked to. -/
structure FromMatch (r : Interpolators) (part : Json) (p : Path) (inputTy : Ty) (input : Expr)
    (labels : List (List Label)) (outputs : List Expr) (otherwise : Expr) (source : Json)
    (branches : List (Json × Json)) (last : Json) : Prop where
  whole : part = .call "match" (source :: (written branches ++ [last]))
  atInput : ChecksAt r (p ++ [1]) source input
  atBranches : ChecksBranches r p branches labels outputs
  atOtherwise : ChecksAt r (p ++ [2 * branches.length + 2]) last otherwise
  labelTy : (inputTy = .number ∨ inputTy = .string) ∧ ∀ ls ∈ labels, ∀ l ∈ ls, l.ty = inputTy

theorem checksBranches_of_steps {ctx : Context} {branches : List (Json × Json)}
    {seen last : BranchesSeen} {checked : List (List Label × Expr)}
    (h : Steps (nextBranch ctx) seen (argPairs branches).zipIdx last checked) :
    ChecksBranches ctx.interpolators ctx.path branches (checked.map (·.1)) (checked.map (·.2)) := by
  obtain ⟨_, _, _, _, hcount⟩ := formed_of_branches (fun p _ => Elaborates.formed p.2) h
  have hbranch : ∀ (k : Nat) (b : Json × Json) (c : List Label × Expr),
      branches[k]? = some b → checked[k]? = some c →
      (labelItems b.1).map labelOf? = c.1.map some ∧
        ChecksAt ctx.interpolators (ctx.path ++ [2 * k + 3]) b.2 c.2 := by
    intro k b c hb hc
    obtain ⟨b', _, _, hb', hclean⟩ := h.getElem?_argPairs hc
    cases hb.symm.trans hb'
    obtain ⟨_, hlabels, _, helaborates, _⟩ := clean_nextBranch.1 hclean
    exact ⟨hlabels, checksAt_child helaborates⟩
  refine ⟨by rw [List.length_map, hcount], by rw [List.length_map, hcount], ?_, ?_⟩
  · intro k b ls hb hls
    rw [List.getElem?_map] at hls
    obtain ⟨c, hc, rfl⟩ := Option.map_eq_some_iff.1 hls
    exact (hbranch k b c hb hc).1
  · intro k b o hb ho
    rw [List.getElem?_map] at ho
    obtain ⟨c, hc, rfl⟩ := Option.map_eq_some_iff.1 ho
    exact (hbranch k b c hb hc).2

variable {r : Interpolators} {part : Json} {p : Path} {t inputTy : Ty} {input otherwise : Expr}
  {table : Dict Nat} {labels : List (List Label)} {outputs : List Expr}
  {branches : List (Json × Json)}

/-- Where a `match` was written there is a `match`, and its table is that of its labels. -/
theorem fromMatch_of_written
    (h : Expr.Written r part (.select p t inputTy input table labels outputs otherwise)) :
    ∃ source branches last,
      FromMatch r part p inputTy input labels outputs otherwise source branches last ∧
      LabelsSeen.TakesBranches 0 ⟨none, []⟩ labels ∧
      LabelsSeen.addBranches 0 ⟨none, []⟩ labels = ⟨some inputTy, table⟩ := by
  obtain ⟨hform, ctx, hpath, rfl, hparses⟩ := h
  have hpath : ctx.path = p := hpath
  rcases hparses with ⟨hscalar, _⟩ | ⟨name, js, form, rfl, hname, hclean⟩
  · obtain ⟨_, rfl⟩ := hform
    cases hscalar
  obtain ⟨_, hcall⟩ := hform
  cases hcall
  cases hname
  obtain ⟨_, source, rest, branches, last, rfl, hpairs, seen, checked, _, _, _, hsteps, hty, hinput,
    hotherwise, heq⟩ := clean_select.1 hclean
  cases heq
  obtain ⟨_, _, htakes, hseen, _⟩ := formed_of_branches (fun p _ => Elaborates.formed p.2) hsteps
  have hadd : LabelsSeen.addBranches 0 ⟨none, []⟩ (checked.map (·.1)) =
      ⟨some inputTy, seen.labels.table⟩ := by
    rw [← hseen, ← hty]
  have hcount : (source :: rest).length = 2 * branches.length + 2 := by
    rw [List.length_cons, Indexed.length_eq_of_inPairs hpairs]
    rfl
  rw [hcount] at hotherwise
  rw [eq_written_of_inPairs hpairs]
  refine ⟨source, branches, last, ?_, htakes, hadd⟩
  exact ⟨rfl, checksAt_child hinput, checksBranches_of_steps hsteps, checksAt_child hotherwise,
    LabelsSeen.ty_of_table htakes hadd⟩

theorem exists_getElem?_of_length_eq {α β : Type} {as : List α} {bs : List β}
    (h : bs.length = as.length) {k : Nat} {a : α} (ha : as[k]? = some a) : ∃ b, bs[k]? = some b := by
  obtain ⟨hlt, _⟩ := List.getElem?_eq_some_iff.1 ha
  exact ⟨bs[k], List.getElem?_eq_getElem (h ▸ hlt)⟩

/-- The table has a value of the type of the labels in the one branch that has it as a label. -/
theorem FromMatch.get?_table {source last : Json} {v : Value}
    (h : FromMatch r part p inputTy input labels outputs otherwise source branches last)
    (htakes : LabelsSeen.TakesBranches 0 ⟨none, []⟩ labels)
    (hadd : LabelsSeen.addBranches 0 ⟨none, []⟩ labels = ⟨some inputTy, table⟩)
    (hv : v.typeOf = inputTy) : ∃ text, Expr.key inputTy v = .ok text ∧
      (∀ k b, branches[k]? = some b → HasLabel b.1 v → table.get? text = some k) ∧
      ((∀ b ∈ branches, ¬ HasLabel b.1 v) → table.get? text = none) := by
  obtain ⟨hty, hlabels⟩ := h.labelTy
  have hinhabits : v.Inhabits inputTy := hv ▸ Value.inhabits_typeOf v
  obtain ⟨text, htext⟩ := toText_of_inhabits hty hinhabits
  have hnames : ∀ (k : Nat) (b : Json × Json) (ls : List Label), branches[k]? = some b →
      labels[k]? = some ls → (HasLabel b.1 v ↔ LabelsSeen.Names text ls = true) := by
    intro k b ls hb hls
    rw [hasLabel_iff_any, any_same_eq_names (h.atBranches.atLabels k b ls hb hls)
      (hlabels ls (List.mem_of_getElem? hls)) hinhabits htext]
  refine ⟨text, ?_, fun k b hb hhas => ?_, fun hnone => ?_⟩
  · rw [Expr.key, asType_of_typeOf hty hv]
    exact htext
  · obtain ⟨ls, hls⟩ := exists_getElem?_of_length_eq h.atBranches.countLabels hb
    rw [LabelsSeen.get?_table htakes hadd]
    exact htakes.findIdx?_eq_some hls ((hnames k b ls hb hls).1 hhas)
  · rw [LabelsSeen.get?_table htakes hadd, List.findIdx?_eq_none_iff]
    intro ls hmem
    obtain ⟨k, hls⟩ := List.mem_iff_getElem?.1 hmem
    obtain ⟨b, hb⟩ := exists_getElem?_of_length_eq h.atBranches.countLabels.symm hls
    rw [← Bool.not_eq_true]
    exact mt (hnames k b ls hb hls).2 (hnone b (List.mem_of_getElem? hb))

end Typing

/-! ## The search -/

/-- How a value is refused where another type is demanded. -/
def Value.refusal (v : Value) (t : Ty) : EvalError :=
  if v.isValid then .typeMismatch t v.typeOf else .invalidValue v

theorem Value.asType_of_ne {v : Value} {t : Ty} (ht : t = .number ∨ t = .string)
    (h : v.typeOf ≠ t) : v.asType t = .error (v.refusal t) := by
  have hfits : fits t v = false := by
    rw [fits]
    cases v.isNull with
    | true => rcases ht with rfl | rfl <;> rfl
    | false => rcases ht with rfl | rfl <;> simpa [Ty.accepts] using h.symm
  rw [asType, refusal, hfits]
  cases v.isValid <;> rfl

namespace Expr

/-- A tree is the input of a node, or what an assertion of a type stands on that is the input. -/
def IsInput (t : Ty) (d input : Expr) : Prop := d = input ∨ ∃ p, input = .assertion p t [d]

/-- An assertion of the type that is demanded anyway does not change what is looked up. -/
theorem IsInput.exists_key {inputTy : Ty} {d input : Expr} (h : IsInput inputTy d input)
    {scene : Scene} {st st' : EvalState} {v : Value} (hd : d.eval scene st = (.ok v, st')) :
    ∃ r, input.eval scene st = (r, st') ∧ (r >>= key inputTy) = key inputTy v := by
  rcases h with rfl | ⟨p, rfl⟩
  · exact ⟨.ok v, hd, rfl⟩
  · refine ⟨v.asType inputTy, ?_, ?_⟩
    · show (assertionRule inputTy 1 0).run (evalEach scene [d]) st = _
      have h0 : (evalEach scene [d])[0]? = some (eval scene d) := rfl
      rw [assertionRule, Rule.run_bind, Rule.run_operand h0, hd]
      rfl
    · have hmeets := v.meets_asType (E := fun _ => True) (fun _ _ => trivial) inputTy
      rw [key]
      cases hv : v.asType inputTy with
      | error e => rfl
      | ok w =>
          rw [hv] at hmeets
          obtain ⟨rfl, _⟩ := hmeets
          show key inputTy w = _
          rw [key, hv]

end Expr

/-- A `match` is a typed linear search.  The labels of the branches that were written are all numbers
or all strings; no number equals a label but whole ones, and no value is in two branches.  When the
input, be it asserted to be of the type of the labels or not, comes to a value of this type, then
the `match` does what the output of the one branch does that has the value as a label, or else what
the last case does; it refuses null and other values.  It evaluates nothing but its input and the
part that it goes on with. -/
theorem select_searches {j : Json} {expected : Option Ty} {interpolators : Interpolators}
    {c : Compiled} (h : compile j expected interpolators = .ok c) {p : Path} {t inputTy : Ty}
    {input otherwise : Expr} {table : Dict Nat} {labels : List (List Label)} {outputs : List Expr}
    (hnode : .select p t inputTy input table labels outputs otherwise ∈ c.root.nodes) :
    ∃ part source branches last, j.partAt? p.text = some part ∧
      FromMatch interpolators part p inputTy input labels outputs otherwise source branches last ∧
      (∀ (v : Value) (k : Nat) (b : Json × Json), branches[k]? = some b → HasLabel b.1 v →
        v.typeOf = inputTy ∧ (∀ x, v = .number x → isWhole x = true) ∧
        ∀ (k' : Nat) (b' : Json × Json), branches[k']? = some b' → HasLabel b'.1 v → k' = k) ∧
      ∀ d : Expr, d.IsInput inputTy input → ∀ (scene : Scene) (st st' : EvalState) (v : Value),
        d.eval scene st = (.ok v, st') →
        let run := Expr.eval scene (.select p t inputTy input table labels outputs otherwise) st
        let evaluated := Expr.consulted scene inputTy input table outputs otherwise st
        (v.typeOf = inputTy →
          (∀ (k : Nat) (b : Json × Json) (o : Expr), branches[k]? = some b →
            outputs[k]? = some o → HasLabel b.1 v →
              run = o.eval scene st' ∧ evaluated = [input, o]) ∧
          ((∀ b ∈ branches, ¬ HasLabel b.1 v) →
            run = otherwise.eval scene st' ∧ evaluated = [input, otherwise])) ∧
        (v.typeOf ≠ inputTy → run = (.error (v.refusal inputTy), st') ∧ evaluated = [input]) := by
  obtain ⟨_, _, helaborates⟩ := formed_of_compile h
  obtain ⟨below, part, hpath, hpart, hcomes⟩ := sourced j _ _ helaborates _ hnode
  have hpath : p = below := hpath
  have hwritten : Expr.Written interpolators part
      (.select p t inputTy input table labels outputs otherwise) := by
    -- what checking adds on top of a node is never a `match`
    rcases hcomes with hwritten | ⟨_, _, heq | ⟨_, heq⟩⟩
    · exact hwritten
    · cases heq
    · cases heq
  obtain ⟨source, branches, last, hfrom, htakes, hadd⟩ := fromMatch_of_written hwritten
  refine ⟨part, source, branches, last, ?_, hfrom, fun v k b hb hhas => ?_, ?_⟩
  · rw [Json.partAt?_text, hpath, hpart]
  · obtain ⟨ls, hls⟩ := exists_getElem?_of_length_eq hfrom.atBranches.countLabels hb
    have hlabels := hfrom.atBranches.atLabels k b ls hb hls
    have hty := hhas.typeOf hlabels (hfrom.labelTy.2 ls (List.mem_of_getElem? hls))
    obtain ⟨_, _, hsome, _⟩ := hfrom.get?_table htakes hadd hty
    refine ⟨hty, ?_, fun k' b' hb' hhas' => ?_⟩
    · rintro x rfl
      exact hhas.isWhole hlabels
    · exact Option.some.inj ((hsome k' b' hb' hhas').symm.trans (hsome k b hb hhas))
  intro d hd scene st st' v heval
  obtain ⟨r, hinput, hkey⟩ := hd.exists_key heval
  refine ⟨fun hv => ?_, fun hv => Expr.select_error hinput ?_⟩
  · obtain ⟨text, htext, hsome, hnone⟩ := hfrom.get?_table htakes hadd hv
    refine ⟨fun k b o hb ho hhas => Expr.select_part hinput (hkey.trans htext) ?_,
      fun hnot => Expr.select_part hinput (hkey.trans htext) ?_⟩
    · rw [Expr.part, hsome k b hb hhas]
      exact ho
    · rw [Expr.part, hnone hnot]
      rfl
  · rw [hkey, Expr.key, Value.asType_of_ne hfrom.labelTy.1 hv]
    rfl

/-- A `match` on a number that a feature has. -/
def byCount : Json :=
  .call "match" [.call "get" [.str "count"], .arr [.ofNat 0, .ofNat 1], .str "few", .ofNat 2,
    .str "some", .str "many"]

/-- Whether a tree is that `match`, with the number asserted to be one. -/
def isByCount : Expr → Bool
  | .select [] .string .number (.assertion [1] .number
      [.call [1] .value .get [.literal [1, 1] .string (.string "count")]]) _ _
      [.literal [3] .string (.string "few"), .literal [5] .string (.string "some")]
      (.literal [6] .string (.string "many")) => true
  | _ => false

theorem select_byCount : ∃ c, compile byCount none .standard = .ok c ∧
    ∀ (easings : EasingCache) (zoom : Float) (properties : Properties) (v : Value),
      properties.get? "count" = some v →
      (v = .number (-0.0) → (c.evaluate easings zoom properties).1 = .ok (.string "few")) ∧
      (v = .number (0.0 / 0.0) → (c.evaluate easings zoom properties).1 = .ok (.string "many")) ∧
      (v = .null → (c.evaluate easings zoom properties).1 =
        .error (.typeMismatch .number .null)) := by
  have hany : ((compile byCount none .standard).toOption.any fun c => isByCount c.root) = true := by
    decide +kernel
  obtain ⟨⟨root, interpolators⟩, h, hshape⟩ := Except.exists_of_any hany
  unfold isByCount at hshape
  split at hshape
  · rename_i hroot
    cases hroot
    refine ⟨_, h, fun easings zoom properties v hv => ?_⟩
    obtain ⟨_, _, branches, last, hpart, hfrom, hone, hsearch⟩ :=
      select_searches h (Expr.mem_nodes_self _)
    rw [Json.partAt?_text] at hpart
    cases hpart
    have hrest : [.arr [.ofNat 0, .ofNat 1], .str "few", .ofNat 2, .str "some", .str "many"] =
        Typing.written branches ++ [last] :=
      (List.cons.inj (List.cons.inj (Json.arr.inj hfrom.whole)).2).2
    have hfirst : branches[0]? = some (.arr [.ofNat 0, .ofNat 1], .str "few") := by
      have hpairs := congrArg (fun js => (inPairs js).1[0]?) hrest
      rw [inPairs_written] at hpairs
      exact (List.append_nil branches ▸ hpairs).symm
    obtain ⟨hfits, hrefused⟩ := hsearch _ (.inr ⟨[1], rfl⟩) ⟨zoom, properties, interpolators⟩
      ⟨[], easings⟩ ⟨[], easings⟩ v (by
        show (properties.get "count", _) = _
        rw [Properties.get, hv]
        rfl)
    refine ⟨?_, ?_, ?_⟩
    · rintro rfl
      have hzero : HasLabel (.arr [.ofNat 0, .ofNat 1]) (.number (-0.0)) :=
        ⟨.ofNat 0, List.mem_cons_self, by decide +kernel⟩
      exact congrArg Prod.fst ((hfits rfl).1 0 _ _ hfirst rfl hzero).1
    · rintro rfl
      have hnan : isWhole (0.0 / 0.0) = false := by decide +kernel
      refine congrArg Prod.fst ((hfits rfl).2 fun b hb hhas => ?_).1
      obtain ⟨k, hk⟩ := List.mem_iff_getElem?.1 hb
      have hwhole := (hone _ k b hk hhas).2.1 _ rfl
      rw [hnan] at hwhole
      cases hwhole
    · rintro rfl
      exact congrArg Prod.fst (hrefused (by decide)).1
  · cases hshape

end MapStyle
