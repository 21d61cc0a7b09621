/-
# `MapStyle.Proofs.Typing.Expected` — documents checked against a known type

Outside of all `let`s, and where a type is expected, checking a form comes down to checking its
parts, each against a type that is known beforehand: the outputs of a `coalesce`, a `match` or a
`curve` all against the expected type, which is then the type of the node.  The equivalences of the
forms are specialised to that case here, with the documents in pairs as they are written.
-/
import MapStyle.Proofs.Typing.Judgement

namespace MapStyle

open Reporting

namespace Typing

/-- Somewhere outside of all `let`s, a document checks to a tree against a type. -/
def ChecksTo (r : Interpolators) (t : Ty) (j : Json) (e : Expr) : Prop :=
  ∃ path, Elaborates ⟨path, some t, [], r⟩ j e

variable {r : Interpolators} {t : Ty} {e : Expr}

theorem ChecksTo.formed {j : Json} (h : ChecksTo r t j e) : e.Formed r [] (some t) := by
  obtain ⟨path, h⟩ := h
  exact h.formed

theorem checksTo_of_compile {j : Json} {c : Compiled} (h : compile j (some t) r = .ok c) :
    ChecksTo r t j c.root := ⟨_, (formed_of_compile h).2.2⟩

theorem Conforms.eq_of_admits {expected : Option Ty} {d : Expr} (h : Conforms expected d e)
    (hd : Admits expected d.ty) : e = d := by
  cases h with
  | kept => rfl
  | colored _ hnot => exact absurd hd hnot
  | asserted _ hnot => exact absurd hd hnot

/-! ## Outputs -/

theorem checksTo_of_outputs {path : Path} {shared last : Option Ty} {js : List Json}
    {es : List Expr} {k : Nat} {expected : Option Ty}
    (h : Steps (fun shared (arg, i) => Arg.checkOutput arg ⟨path, expected, [], r⟩ i shared) shared
      ((js.map argOf).zipIdx k) last es) (hshared : shared = some t) :
    last = some t ∧ List.Forall₂ (ChecksTo r t) js es := by
  subst hshared
  induction js generalizing k es with
  | nil =>
      cases h
      exact ⟨rfl, .nil⟩
  | cons j js ih =>
      rcases h with _ | ⟨hstep, hsteps⟩
      obtain ⟨helaborates, rfl⟩ := clean_checkOutput.1 hstep
      obtain ⟨hlast, hrest⟩ := ih hsteps
      exact ⟨hlast, .cons ⟨_, helaborates⟩ hrest⟩

theorem ChecksTo.coalesce {js : List Json} (h : ChecksTo r t (.call "coalesce" js) e) :
    ∃ p es, e = .coalesce p t es ∧ List.Forall₂ (ChecksTo r t) js es := by
  obtain ⟨path, h⟩ := h
  obtain ⟨d, hd, hconforms⟩ := (elaborates_named rfl).1 h
  obtain ⟨_, es, hsteps, rfl⟩ := clean_coalesce.1 hd
  obtain ⟨rfl, hes⟩ := checksTo_of_outputs hsteps rfl
  exact ⟨path, es, hconforms.eq_of_admits (admits_self t), hes⟩

/-! ## Documents in pairs -/

/-- Documents in pairs, written one after the other. -/
def written (pairs : List (Json × Json)) : List Json := pairs.flatMap fun p => [p.1, p.2]

theorem inPairs_written (pairs : List (Json × Json)) (rest : List Json) :
    inPairs (written pairs ++ rest) = (pairs ++ (inPairs rest).1, (inPairs rest).2) := by
  induction pairs with
  | nil => rfl
  | cons p pairs ih =>
      show inPairs (p.1 :: p.2 :: (written pairs ++ rest)) = _
      rw [inPairs, ih]
      rfl

theorem eq_written_of_inPairs : ∀ {js : List Json} {pairs : List (Json × Json)} {last : Json},
    inPairs js = (pairs, some last) → js = written pairs ++ [last]
  | [], _, _, h => by cases h
  | [_], _, _, h => by
      cases h
      rfl
  | a :: b :: rest, _, last, h => by
      obtain ⟨hpairs, hlast⟩ := Prod.mk.inj h
      have hrest := eq_written_of_inPairs (Prod.ext rfl hlast : inPairs rest = (_, some last))
      rw [← hpairs]
      exact congrArg (a :: b :: ·) hrest

/-- A stop checks to a label and an output. -/
def ChecksStop (r : Interpolators) (t : Ty) (stop : Json × Json) (c : Float × Expr) : Prop :=
  stop.1.num? = some c.1 ∧ ChecksTo r t stop.2 c.2

/-- A branch checks to its labels and an output. -/
def ChecksBranch (r : Interpolators) (t : Ty) (branch : Json × Json) (c : List Label × Expr) :
    Prop :=
  (labelItems branch.1).map labelOf? = c.1.map some ∧ ChecksTo r t branch.2 c.2

theorem checksTo_of_stops {path : Path} {seen last : StopsSeen} {expected : Option Ty}
    {stops : List (Json × Json)} {checked : List (Float × Expr)} {k : Nat}
    (h : Steps (nextStop ⟨path, expected, [], r⟩) seen ((argPairs stops).zipIdx k) last checked)
    (hseen : seen.shared = some t) :
    last.shared = some t ∧ List.Forall₂ (ChecksStop r t) stops checked := by
  induction stops generalizing k seen checked with
  | nil =>
      cases h
      exact ⟨hseen, .nil⟩
  | cons stop stops ih =>
      rcases h with _ | ⟨hstep, hsteps⟩
      rename_i c _
      obtain ⟨x, d⟩ := c
      obtain ⟨hx, _, hd, rfl⟩ := clean_nextStop.1 hstep
      rw [hseen] at hd
      obtain ⟨hlast, hrest⟩ := ih hsteps (by rw [hseen]; rfl)
      exact ⟨hlast, .cons ⟨hx, _, hd⟩ hrest⟩

theorem checksTo_of_branches {path : Path} {seen last : BranchesSeen} {expected : Option Ty}
    {branches : List (Json × Json)} {checked : List (List Label × Expr)} {k : Nat}
    (h : Steps (nextBranch ⟨path, expected, [], r⟩) seen ((argPairs branches).zipIdx k) last
      checked) (hseen : seen.shared = some t) :
    last.shared = some t ∧ List.Forall₂ (ChecksBranch r t) branches checked := by
  induction branches generalizing k seen checked with
  | nil =>
      cases h
      exact ⟨hseen, .nil⟩
  | cons branch branches ih =>
      rcases h with _ | ⟨hstep, hsteps⟩
      rename_i c _
      obtain ⟨ls, d⟩ := c
      obtain ⟨_, hls, _, hd, rfl⟩ := clean_nextBranch.1 hstep
      rw [hseen] at hd
      obtain ⟨hlast, hrest⟩ := ih hsteps (by rw [hseen]; rfl)
      exact ⟨hlast, .cons ⟨hls, _, hd⟩ hrest⟩

/-- A curve that checks against a type has that type, its input is a number, and its labels and
outputs are those of the stops. -/
theorem ChecksTo.curve {description input : Json} {stops : List (Json × Json)}
    (h : ChecksTo r t (.call "curve" (description :: input :: written stops)) e) :
    ∃ p kind d checked, e = .curve p t kind d (checked.map (·.1)) (checked.map (·.2)) ∧
      Describes description kind ∧ ChecksTo r .number input d ∧
      List.Forall₂ (ChecksStop r t) stops checked := by
  obtain ⟨path, h⟩ := h
  obtain ⟨d, hd, hconforms⟩ := (elaborates_named rfl).1 h
  obtain ⟨_, _, _, _, _, heq, hpairs, kind, input', seen, checked, hkind, hinput, hsteps, _, rfl⟩ :=
    clean_curve.1 hd
  cases heq
  have hstops := inPairs_written stops []
  rw [List.append_nil, hpairs, inPairs, List.append_nil] at hstops
  obtain ⟨rfl, _⟩ := Prod.mk.inj hstops
  obtain ⟨hshared, hchecked⟩ := checksTo_of_stops hsteps rfl
  rw [hshared] at hconforms
  exact ⟨path, kind, input', checked, hconforms.eq_of_admits (admits_self t), hkind, ⟨_, hinput⟩,
    hchecked⟩

/-- A `match` that checks against a type has that type, its input is of the type of the labels, and
its labels and outputs are those of the branches. -/
theorem ChecksTo.select {input last : Json} {branches : List (Json × Json)}
    (h : ChecksTo r t (.call "match" (input :: (written branches ++ [last]))) e) :
    ∃ p inputTy d table checked otherwise, e = .select p t inputTy d table (checked.map (·.1))
        (checked.map (·.2)) otherwise ∧
      ChecksTo r inputTy input d ∧ List.Forall₂ (ChecksBranch r t) branches checked ∧
      ChecksTo r t last otherwise := by
  obtain ⟨path, h⟩ := h
  obtain ⟨d, hd, hconforms⟩ := (elaborates_named rfl).1 h
  obtain ⟨_, _, _, _, _, heq, hpairs, seen, checked, input', otherwise, inputTy, hsteps, _, hinput,
    hlast, rfl⟩ := clean_select.1 hd
  cases heq
  rw [inPairs_written, inPairs, List.append_nil] at hpairs
  obtain ⟨rfl, hextra⟩ := Prod.mk.inj hpairs
  cases hextra
  obtain ⟨hshared, hchecked⟩ := checksTo_of_branches hsteps rfl
  rw [hshared] at hconforms hlast
  exact ⟨path, inputTy, input', _, checked, otherwise, hconforms.eq_of_admits (admits_self t),
    ⟨_, hinput⟩, hchecked, ⟨_, hlast⟩⟩

/-! ## Leaves -/

theorem literal_of_scalar {ctx : Context} {j : Json} (h : Clean (scalar j ctx) (some e)) :
    ∃ t v, e = .literal ctx.path t v := by
  rcases clean_scalar.1 h with ⟨_, _, _, _, _, h⟩ | ⟨_, h⟩
  · obtain ⟨_, rfl⟩ := clean_literalOf.1 h
    exact ⟨_, _, rfl⟩
  · obtain ⟨_, rfl⟩ := clean_literalOf.1 h
    exact ⟨_, _, rfl⟩

/-- A scalar that checks against a type other than that of colors stands for itself. -/
theorem ChecksTo.scalar {j : Json} (hj : IsScalar j) (ht : t ≠ .color) (h : ChecksTo r t j e) :
    ∃ p, e = .literal p (Value.ofJson j).typeOf (Value.ofJson j) := by
  obtain ⟨path, h⟩ := h
  obtain ⟨d, hd, hconforms⟩ := (elaborates_scalar hj).1 h
  rcases clean_scalar.1 hd with ⟨_, _, _, hcolor, _⟩ | ⟨_, hd⟩
  · exact absurd (Option.some.inj hcolor) ht
  obtain ⟨_, rfl⟩ := clean_literalOf.1 hd
  have hty : literalTy (some t) (Value.ofJson j) = (Value.ofJson j).typeOf := by
    cases j <;> first | rfl | cases hj
  rw [hty] at hconforms
  cases hconforms with
  | kept => exact ⟨path, rfl⟩
  | colored hcolor => exact absurd (Option.some.inj hcolor) ht
  | asserted hwanted hnot _ _ haccepts =>
      -- a scalar type accepts itself only, and would have been right
      cases hwanted
      have heq : (Value.ofJson j).typeOf = t := by
        cases j <;> first | exact beq_iff_eq.1 haccepts | cases hj
      exact absurd (heq ▸ admits_self t) hnot

/-- Data that check against a type other than that of colors are a literal, or one that is asserted
to be of the type where that is not right but a narrower one. -/
theorem ChecksTo.literal {j : Json} (ht : t ≠ .color) (h : ChecksTo r t (.call "literal" [j]) e) :
    ∃ p d, d = .literal p (literalTy (some t) (Value.ofJson j)) (Value.ofJson j) ∧
      (e = d ∨ e = .assertion p t [d] ∧ ¬ Admits (some t) d.ty ∧ d.ty.accepts t = true) := by
  obtain ⟨path, h⟩ := h
  obtain ⟨d, hd, hconforms⟩ := (elaborates_named rfl).1 h
  obtain ⟨_, heq, hd⟩ := clean_literal.1 hd
  cases heq
  obtain ⟨_, rfl⟩ := clean_literalOf.1 hd
  refine ⟨path, _, rfl, ?_⟩
  cases hconforms with
  | kept => exact .inl rfl
  | colored hcolor => exact absurd (Option.some.inj hcolor) ht
  | asserted hwanted hnot _ _ haccepts =>
      cases hwanted
      exact .inr ⟨rfl, hnot, haccepts⟩

theorem ChecksTo.assertion {name : String} (hform : form? name = some (assertion t)) {input : Json}
    (h : ChecksTo r t (.call name [input]) e) :
    ∃ p d, ChecksTo r .value input d ∧ e = .assertion p t [d] := by
  obtain ⟨path, h⟩ := h
  obtain ⟨d, hd, hconforms⟩ := (elaborates_named hform).1 h
  obtain ⟨_, es, heach, rfl⟩ := clean_assertion.1 hd
  obtain _ | ⟨hinput, _ | _⟩ := heach
  exact ⟨path, _, ⟨_, hinput⟩, hconforms.eq_of_admits (admits_self t)⟩

/-- An array assertion, asserted to be of the expected type if it is not right as it is. -/
theorem ChecksTo.arrayAssertion {js : List Json} (h : ChecksTo r t (.call "array" js) e) :
    ∃ p item len input d, arrayParts? js = some (item, len, input) ∧ ChecksTo r .value input d ∧
      Conforms (some t) (.assertion p (.array item len) [d]) e := by
  obtain ⟨path, h⟩ := h
  obtain ⟨_, hd, hconforms⟩ := (elaborates_named rfl).1 h
  obtain ⟨item, len, input, hparts, d, hinput, rfl⟩ := clean_arrayAssertion.1 hd
  exact ⟨path, item, len, input, d, hparts, ⟨_, hinput⟩, hconforms⟩

/-! ## Calls -/

theorem ChecksTo.call (fn : Builtin) {js : List Json} (h : ChecksTo r t (.call fn.name js) e) :
    ∃ p signature es, signature ∈ fn.signatures ∧
      Each ⟨p, some t, [], r⟩ (fun i => some (signature.param i)) 0 js es ∧
      signature.takes js.length = true ∧
      Conforms (some t) (.call p (fn.result (es.map Expr.ty)) fn es) e := by
  obtain ⟨path, h⟩ := h
  obtain ⟨d, hd, hconforms⟩ := (elaborates_named (form?_name fn)).1 h
  obtain ⟨signature, es, ⟨earlier, later, hsplit, _, htakes, heach⟩, rfl⟩ := clean_call.1 hd
  exact ⟨path, signature, es, by simp [hsplit], heach, htakes, hconforms⟩

theorem ChecksTo.zoom (h : ChecksTo r .number (.call "zoom" []) e) :
    ∃ p, e = .call p .number .zoom [] := by
  obtain ⟨p, _, es, _, heach, _, hconforms⟩ := ChecksTo.call .zoom h
  cases heach
  exact ⟨p, hconforms.eq_of_admits (admits_self .number)⟩

/-- The property of a feature as a node, with its key. -/
def propertyAt (p q : Path) (key : String) : Expr :=
  .call p .value .get [.literal q .string (.string key)]

theorem ChecksTo.propertyAt {key : String} (h : ChecksTo r t (.call "get" [.str key]) e) :
    ∃ p q, Conforms (some t) (propertyAt p q key) e := by
  obtain ⟨p, signature, es, hsignature, heach, htakes, hconforms⟩ := ChecksTo.call .get h
  have hparam : signature.param 0 = .string := by
    rcases List.mem_pair.1 hsignature with rfl | rfl <;> rfl
  obtain _ | ⟨hkey, _ | _⟩ := heach
  rw [hparam] at hkey
  have hscalar : ∀ e, ChecksTo r .string (.str key) e →
      ∃ q, e = .literal q .string (.string key) := fun _ => ChecksTo.scalar trivial nofun
  obtain ⟨q, rfl⟩ := hscalar _ ⟨_, hkey⟩
  exact ⟨p, q, hconforms⟩

theorem ChecksTo.get {key : String} (ht : t ≠ .color)
    (h : ChecksTo r t (.call "get" [.str key]) e) :
    ∃ p q, (t = .value ∧ e = Typing.propertyAt p q key) ∨
      (t ≠ .value ∧ e = .assertion p t [Typing.propertyAt p q key]) := by
  obtain ⟨p, q, hconforms⟩ := h.propertyAt
  refine ⟨p, q, ?_⟩
  cases hconforms with
  | kept hadmits =>
      refine .inl ⟨?_, rfl⟩
      rcases admits_some.1 hadmits with hnull | haccepts
      · cases hnull
      · cases t <;> first | rfl | cases haccepts
  | colored hcolor => exact absurd (Option.some.inj hcolor) ht
  | asserted hwanted hnot =>
      cases hwanted
      refine .inr ⟨?_, rfl⟩
      rintro rfl
      exact hnot (admits_self .value)

end Typing
end MapStyle
