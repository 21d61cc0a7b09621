/-
# `MapStyle.Proofs.Typing.Refit` — trees that would check against another type as well

Some functions take the same number of arguments in two ways: two numbers or two strings, an array
or a string.  The later way is taken only when the arguments do not check against the earlier one,
so what has to be known of a checked argument is whether its document would have checked against the
earlier type.  `Refits` says so of the tree alone.

* `Elaborates.refit`: a document whose tree against `String` refits a type checks against that type.
* `FirstSignature.not_refits`: arguments of a later signature do not refit an earlier one.
-/
import MapStyle.Proofs.Typing.Forms

namespace MapStyle

open Reporting

mutual

/-- The document of a tree would check against the type `t` without an assertion: the outputs of
the tree, followed through coalescing, branches, stops and bodies, are merely null. -/
def Expr.Refits (interpolators : Interpolators) (t : Ty) : Expr → Prop
  | .coalesce _ _ args => RefitsAll interpolators t args
  | .select _ _ _ _ _ _ outputs otherwise =>
    RefitsAll interpolators t outputs ∧ Refits interpolators t otherwise
  | .curve _ _ kind _ _ outputs =>
    RefitsAll interpolators t outputs ∧ (kind.isStep || interpolators.supports t) = true
  | .letIn _ _ _ body => Refits interpolators t body
  | .literal _ ty _ => ty = .null
  | .var _ ty _ => ty = .null
  | .assertion _ ty _ => ty = .null
  | .call _ ty _ _ => ty = .null

def Expr.RefitsAll (interpolators : Interpolators) (t : Ty) : List Expr → Prop
  | [] => True
  | e :: es => Refits interpolators t e ∧ RefitsAll interpolators t es

end

/-- Arguments from `i` on refit the parameters of a signature. -/
def Signature.RefitsFrom (interpolators : Interpolators) (signature : Signature) :
    Nat → List Expr → Prop
  | _, [] => True
  | i, e :: es =>
    e.Refits interpolators (signature.param i) ∧ RefitsFrom interpolators signature (i + 1) es

/-- A text cannot stand where the type is expected: it is not taken as it is, nor read as a color,
nor asserted to be of the type. -/
def Ty.refusesText (t : Ty) : Bool := t != .color && !t.accepts .string && !Ty.string.accepts t

theorem Ty.ne_color_of_refusesText {t : Ty} (h : t.refusesText = true) : t ≠ .color := by
  rintro rfl
  cases h

/-- The context in which a part is expected to be of a type. -/
def Context.expecting (ctx : Context) (t : Ty) : Context := { ctx with expected := some t }

namespace Typing

/-! ## Induction on documents -/

mutual

/-- Induction on a document by the items of arrays. -/
theorem json_induction {P : Json → Prop} (scalar : ∀ j, IsScalar j → P j)
    (arr : ∀ items, (∀ j ∈ items, P j) → P (.arr items)) (obj : ∀ fields, P (.obj fields)) :
    ∀ j, P j
  | .null => scalar _ trivial
  | .bool _ => scalar _ trivial
  | .num _ => scalar _ trivial
  | .str _ => scalar _ trivial
  | .arr items => arr items (json_induction_items scalar arr obj items)
  | .obj fields => obj fields

theorem json_induction_items {P : Json → Prop} (scalar : ∀ j, IsScalar j → P j)
    (arr : ∀ items, (∀ j ∈ items, P j) → P (.arr items)) (obj : ∀ fields, P (.obj fields)) :
    ∀ items : List Json, ∀ j ∈ items, P j
  | [], _, h => nomatch h
  | i :: is, j, h => by
      rcases List.mem_cons.1 h with h | h
      · rw [h]
        exact json_induction scalar arr obj i
      · exact json_induction_items scalar arr obj is j h

end

/-! ## Types that are right anywhere -/

theorem accepts_refl (t : Ty) : t.accepts t = true := by
  induction t with
  | array item len ih =>
      cases len with
      | none => simp [Ty.accepts, Ty.lensAgree, ih]
      | some n => simp [Ty.accepts, Ty.lensAgree, ih]
  | _ => rfl

theorem accepts_value (t : Ty) : Ty.accepts .value t = true := by
  simp [Ty.accepts]

theorem admits_null (expected : Option Ty) : Admits expected .null :=
  fun _ _ => .inl rfl

theorem admits_self (t : Ty) : Admits (some t) t := admits_some.2 (.inr (accepts_refl t))

theorem admits_value (t : Ty) : Admits (some .value) t := admits_some.2 (.inr (accepts_value t))

theorem Conforms.admits {expected : Option Ty} {d e : Expr} (h : Conforms expected d e) :
    Admits expected e.ty := by
  cases h with
  | kept h => exact h
  | colored hcolor => exact hcolor ▸ admits_self .color
  | asserted hwanted => exact hwanted ▸ admits_self _

theorem Elaborates.admits {ctx : Context} {j : Json} {e : Expr} (h : Elaborates ctx j e) :
    Admits ctx.expected e.ty := by
  induction j using json_induction with
  | scalar j hj =>
      obtain ⟨_, _, hconf⟩ := (elaborates_scalar hj).1 h
      exact hconf.admits
  | arr items =>
      obtain ⟨_, _, _, _, _, _, _, hconf⟩ := elaborates_arr.1 h
      exact hconf.admits
  | obj fields => exact absurd h not_elaborates_obj

/-! ## What does not depend on the expected type -/

theorem literalTy_eq_null {expected : Option Ty} {v : Value} :
    literalTy expected v = .null ↔ v = .null := by
  cases v with
  | null => simp [literalTy, Value.typeOf]
  | array items =>
      simp only [literalTy, Value.typeOf]
      split <;> simp_all
  | _ => simp [literalTy, Value.typeOf]

theorem each_congr {ctx ctx' : Context} (hctx : ∀ i t, ctx.child i t = ctx'.child i t)
    {expected : Nat → Option Ty} {i : Nat} {js : List Json} {es : List Expr}
    (h : Each ctx expected i js es) : Each ctx' expected i js es := by
  induction h with
  | nil i => exact .nil i
  | cons hj _ ih =>
      rw [hctx] at hj
      exact .cons hj ih

theorem firstSignature_congr {ctx ctx' : Context} (hctx : ∀ i t, ctx.child i t = ctx'.child i t)
    {js : List Json} {signatures : List Signature} {signature : Signature} {es : List Expr}
    (h : FirstSignature ctx js signatures signature es) :
    FirstSignature ctx' js signatures signature es := by
  obtain ⟨earlier, later, hsplit, hearlier, htakes, heach⟩ := h
  refine ⟨earlier, later, hsplit, ?_, htakes, each_congr hctx heach⟩
  rintro s hs ⟨hs', ds, hds⟩
  exact hearlier s hs ⟨hs', ds, each_congr (fun i t => (hctx i t).symm) hds⟩

theorem child_expecting (ctx : Context) (t : Ty) (i : Nat) (expected : Option Ty) :
    ctx.child i expected = (ctx.expecting t).child i expected := rfl

/-- A form that does not look at the expected type. -/
def Unexpecting (form : Form) : Prop :=
  ∀ (js : List Json) (ctx : Context) (t : Ty) (e : Expr),
    Clean (form (js.map argOf) ctx) (some e) →
      Clean (form (js.map argOf) (ctx.expecting t)) (some e)

theorem unexpecting_var : Unexpecting var := by
  intro js ctx t e h
  exact clean_var.2 (clean_var.1 h)

theorem unexpecting_assertion (ty : Ty) : Unexpecting (assertion ty) := by
  intro js ctx t e h
  obtain ⟨hne, es, heach, rfl⟩ := clean_assertion.1 h
  exact clean_assertion.2 ⟨hne, es, each_congr (child_expecting ctx t) heach, rfl⟩

theorem unexpecting_arrayAssertion : Unexpecting arrayAssertion := by
  intro js ctx t e h
  exact clean_arrayAssertion.2 (clean_arrayAssertion.1 h)

theorem unexpecting_call (fn : Builtin) : Unexpecting (call fn) := by
  intro js ctx t e h
  obtain ⟨signature, es, hfirst, rfl⟩ := clean_call.1 h
  exact clean_call.2 ⟨signature, es, firstSignature_congr (child_expecting ctx t) hfirst, rfl⟩

/-! ## Checking against another type -/

/-- What was checked against `String` and refits `t` checks against `t`. -/
def Recasts (t : Ty) (j : Json) : Prop :=
  ∀ (ctx : Context) {e : Expr}, ctx.expected = some .string → Elaborates ctx j e →
    e.Refits ctx.interpolators t → ∃ d, Elaborates (ctx.expecting t) j d

theorem steps_checkOutput_refit {t : Ty} {ctx : Context} {js : List Json}
    (ih : ∀ j ∈ js, Recasts t j) {k : Nat} {last : Option Ty} {es : List Expr}
    (h : Steps (fun shared (arg, i) => Arg.checkOutput arg ctx i shared) (some .string)
      ((js.map argOf).zipIdx k) last es) (hes : Expr.RefitsAll ctx.interpolators t es) :
    ∃ ds, Steps (fun shared (arg, i) => Arg.checkOutput arg (ctx.expecting t) i shared) (some t)
      ((js.map argOf).zipIdx k) (some t) ds := by
  induction js generalizing k es with
  | nil =>
      cases h
      exact ⟨[], .nil _⟩
  | cons j js hrest =>
      obtain ⟨hj, hjs⟩ := List.forall_mem_cons.1 ih
      rcases h with _ | ⟨hstep, hsteps⟩
      obtain ⟨he, rfl⟩ := clean_checkOutput.1 hstep
      obtain ⟨d, hd⟩ := hj _ rfl he hes.1
      obtain ⟨ds, hds⟩ := hrest hjs hsteps hes.2
      exact ⟨d :: ds, .cons (clean_checkOutput.2 ⟨hd, rfl⟩) hds⟩

theorem steps_nextBranch_refit {t : Ty} {ctx : Context} {branches : List (Json × Json)}
    (ih : ∀ p ∈ branches, Recasts t p.2) {k : Nat} {labels : LabelsSeen} {last : BranchesSeen}
    {checked : List (List Label × Expr)}
    (h : Steps (nextBranch ctx) ⟨labels, some .string⟩ ((argPairs branches).zipIdx k) last checked)
    (hes : Expr.RefitsAll ctx.interpolators t (checked.map (·.2))) :
    last.shared = some .string ∧ ∃ ds, Steps (nextBranch (ctx.expecting t)) ⟨labels, some t⟩
      ((argPairs branches).zipIdx k) ⟨last.labels, some t⟩ ds := by
  induction branches generalizing k labels checked with
  | nil =>
      cases h
      exact ⟨rfl, [], .nil _⟩
  | cons p branches hrest =>
      obtain ⟨hp, hps⟩ := List.forall_mem_cons.1 ih
      rcases h with _ | ⟨hstep, hsteps⟩
      rename_i b _
      obtain ⟨ls, e⟩ := b
      obtain ⟨hne, hls, htakes, he, rfl⟩ := clean_nextBranch.1 hstep
      obtain ⟨d, hd⟩ := hp _ rfl he hes.1
      obtain ⟨hshared, ds, hds⟩ := hrest hps hsteps hes.2
      exact ⟨hshared, (ls, d) :: ds, .cons (clean_nextBranch.2 ⟨hne, hls, htakes, hd, rfl⟩) hds⟩

theorem steps_nextStop_refit {t : Ty} {ctx : Context} {stops : List (Json × Json)}
    (ih : ∀ p ∈ stops, Recasts t p.2) {k : Nat} {before : Option Float} {last : StopsSeen}
    {checked : List (Float × Expr)}
    (h : Steps (nextStop ctx) ⟨some .string, before⟩ ((argPairs stops).zipIdx k) last checked)
    (hes : Expr.RefitsAll ctx.interpolators t (checked.map (·.2))) :
    ∃ ds, Steps (nextStop (ctx.expecting t)) ⟨some t, before⟩
      ((argPairs stops).zipIdx k) ⟨some t, last.last⟩ ds := by
  induction stops generalizing k before checked with
  | nil =>
      cases h
      exact ⟨[], .nil _⟩
  | cons p stops hrest =>
      obtain ⟨hp, hps⟩ := List.forall_mem_cons.1 ih
      rcases h with _ | ⟨hstep, hsteps⟩
      rename_i b _
      obtain ⟨x, e⟩ := b
      obtain ⟨hx, hfollows, he, rfl⟩ := clean_nextStop.1 hstep
      obtain ⟨d, hd⟩ := hp _ rfl he hes.1
      obtain ⟨ds, hds⟩ := hrest hps hsteps hes.2
      exact ⟨(x, d) :: ds, .cons (clean_nextStop.2 ⟨hx, hfollows, hd, rfl⟩) hds⟩

theorem steps_bindIn_expecting {t : Ty} {ctx : Context} {bindings : List (Json × Json)} {k : Nat}
    {bound : List (String × Expr)}
    (h : Steps (bindIn ctx) () ((argPairs bindings).zipIdx k) () bound) :
    Steps (bindIn (ctx.expecting t)) () ((argPairs bindings).zipIdx k) () bound := by
  induction bindings generalizing k bound with
  | nil =>
      cases h
      exact .nil _
  | cons p bindings hrest =>
      rcases h with _ | ⟨hstep, hsteps⟩
      exact .cons (clean_bindIn.2 (clean_bindIn.1 hstep)) (hrest hsteps)

/-- Where a text is expected and the tree refits another type, nothing was asserted. -/
theorem Conforms.eq_of_refits {d e : Expr} {interpolators : Interpolators} {t : Ty}
    (h : Conforms (some .string) d e) (hrefit : e.Refits interpolators t) : e = d := by
  cases h with
  | kept => rfl
  | colored h => cases h
  | asserted _ _ hnull => exact absurd hrefit hnull

theorem recasts_scalar {t : Ty} (ht : t ≠ .color) {j : Json} (hj : IsScalar j) : Recasts t j := by
  intro ctx e hexp h hrefit
  obtain ⟨d, hd, hconf⟩ := (elaborates_scalar hj).1 h
  rw [hexp] at hconf
  cases hconf.eq_of_refits hrefit
  rcases clean_scalar.1 hd with ⟨_, _, _, hcolor, _⟩ | ⟨_, hd⟩
  · rw [hexp] at hcolor
    cases hcolor
  · obtain ⟨hvalid, rfl⟩ := clean_literalOf.1 hd
    have hnull := literalTy_eq_null.1 hrefit
    have hliteral : Clean (scalar j (ctx.expecting t))
        (some (.literal ctx.path (literalTy (some t) (Value.ofJson j)) (Value.ofJson j))) :=
      clean_scalar.2 (.inr ⟨fun _ _ h => ht (Option.some.inj h), clean_literalOf.2 ⟨hvalid, rfl⟩⟩)
    refine ⟨_, (elaborates_scalar hj).2 ⟨_, hliteral, .kept ?_⟩⟩
    rw [hnull]
    exact admits_null _

/-- What was checked by a form against `String` and refits `t` is checked by it against `t`. -/
def FormRecasts (t : Ty) (form : Form) : Prop :=
  ∀ {js : List Json} {ctx : Context} {e : Expr}, (∀ j ∈ js, Recasts t j) →
    ctx.expected = some .string → Clean (form (js.map argOf) ctx) (some e) →
    e.Refits ctx.interpolators t →
    ∃ d, Clean (form (js.map argOf) (ctx.expecting t)) (some d) ∧ Admits (some t) d.ty

theorem Unexpecting.recasts {t : Ty} {form : Form} (hform : Unexpecting form)
    (hrefit : ∀ {js : List Json} {ctx : Context} {e : Expr},
      Clean (form (js.map argOf) ctx) (some e) → e.Refits ctx.interpolators t → e.ty = .null) :
    FormRecasts t form := by
  intro js ctx e _ _ h he
  refine ⟨e, hform _ _ _ _ h, ?_⟩
  rw [hrefit h he]
  exact admits_null _

theorem literal_recasts (t : Ty) : FormRecasts t literal := by
  intro js ctx e _ _ h hrefit
  obtain ⟨j, rfl, hj⟩ := clean_literal.1 h
  obtain ⟨hvalid, rfl⟩ := clean_literalOf.1 hj
  refine ⟨_, clean_literal.2 ⟨j, rfl, clean_literalOf.2 ⟨hvalid, rfl⟩⟩, ?_⟩
  rw [literalTy_eq_null.1 hrefit]
  exact admits_null _

theorem coalesce_recasts (t : Ty) : FormRecasts t coalesce := by
  intro js ctx e ih hexp h hrefit
  obtain ⟨shared, es, hsteps, rfl⟩ := clean_coalesce.1 h
  rw [hexp] at hsteps
  obtain ⟨ds, hds⟩ := steps_checkOutput_refit ih hsteps hrefit
  exact ⟨_, clean_coalesce.2 ⟨some t, ds, hds, rfl⟩, admits_self t⟩

theorem select_recasts (t : Ty) : FormRecasts t select := by
  intro js ctx e ih hexp h hrefit
  obtain ⟨hlen, input, rest, branches, last, rfl, hpairs, seen, checked, d, otherwise, inputTy,
    hbranches, hty, hd, hotherwise, rfl⟩ := clean_select.1 h
  obtain ⟨hmem, hlast⟩ := mem_of_inPairs hpairs
  rw [hexp] at hbranches
  obtain ⟨hshared, cs, hcs⟩ := steps_nextBranch_refit
    (fun p hp => ih _ (List.mem_cons_of_mem _ (hmem p hp).2)) hbranches hrefit.1
  obtain ⟨o, ho⟩ := ih last (List.mem_cons_of_mem _ (hlast _ rfl)) _ hshared hotherwise hrefit.2
  exact ⟨_, clean_select.2 ⟨hlen, input, rest, branches, last, rfl, hpairs, _, cs, d, o, inputTy,
    hcs, hty, hd, ho, rfl⟩, admits_self t⟩

theorem curve_recasts (t : Ty) : FormRecasts t curve := by
  intro js ctx e ih hexp h hrefit
  obtain ⟨hlen, description, input, rest, stops, rfl, hpairs, kind, d, seen, checked, hkind, hd,
    hstops, _, rfl⟩ := clean_curve.1 h
  obtain ⟨hmem, _⟩ := mem_of_inPairs hpairs
  rw [hexp] at hstops
  obtain ⟨cs, hcs⟩ := steps_nextStop_refit
    (fun p hp => ih _ (List.mem_cons_of_mem _ (List.mem_cons_of_mem _ (hmem p hp).2)))
    hstops hrefit.1
  exact ⟨_, clean_curve.2 ⟨hlen, description, input, rest, stops, rfl, hpairs, kind, d, _, cs,
    hkind, hd, hcs, hrefit.2, rfl⟩, admits_self t⟩

theorem letIn_recasts (t : Ty) : FormRecasts t letIn := by
  intro js ctx e ih hexp h hrefit
  obtain ⟨hlen, bindings, last, hpairs, bound, body, hbound, hbody, rfl⟩ := clean_letIn.1 h
  obtain ⟨_, hlast⟩ := mem_of_inPairs hpairs
  obtain ⟨d, hd⟩ := ih last (hlast _ rfl) (ctx.childWith _ _) hexp hbody hrefit
  exact ⟨_, clean_letIn.2 ⟨hlen, bindings, last, hpairs, bound, d, steps_bindIn_expecting hbound,
    hd, rfl⟩, hd.admits⟩

theorem recasts_arr {t : Ty} {items : List Json} (ih : ∀ j ∈ items, Recasts t j) :
    Recasts t (.arr items) := by
  intro ctx e hexp h hrefit
  obtain ⟨name, js, form, d, rfl, hform, hd, hconf⟩ := elaborates_arr.1 h
  rw [hexp] at hconf
  cases hconf.eq_of_refits hrefit
  have hrecasts : FormRecasts t form := by
    cases isForm hform with
    | literal => exact literal_recasts t
    | coalesce => exact coalesce_recasts t
    | select => exact select_recasts t
    | curve => exact curve_recasts t
    | letIn => exact letIn_recasts t
    | var =>
        refine unexpecting_var.recasts fun h he => ?_
        obtain ⟨_, _, _, _, rfl⟩ := clean_var.1 h
        exact he
    | assertion =>
        refine (unexpecting_assertion _).recasts fun h he => ?_
        obtain ⟨_, _, _, rfl⟩ := clean_assertion.1 h
        exact he
    | arrayAssertion =>
        refine unexpecting_arrayAssertion.recasts fun h he => ?_
        obtain ⟨_, _, _, _, _, _, rfl⟩ := clean_arrayAssertion.1 h
        exact he
    | call fn =>
        refine (unexpecting_call fn).recasts fun h he => ?_
        obtain ⟨_, _, _, rfl⟩ := clean_call.1 h
        exact he
  obtain ⟨d, hclean, hty⟩ :=
    hrecasts (fun j hj => ih j (List.mem_cons_of_mem _ hj)) hexp hd hrefit
  exact ⟨d, elaborates_arr.2 ⟨name, js, form, d, rfl, hform, hclean, .kept hty⟩⟩

/-- A document whose tree against `String` refits a type checks against that type. -/
theorem Elaborates.refit {t : Ty} (ht : t ≠ .color) (j : Json) : Recasts t j := by
  induction j using json_induction with
  | scalar j hj => exact recasts_scalar ht hj
  | arr items ih => exact recasts_arr ih
  | obj fields =>
      intro _ _ _ h _
      exact absurd h not_elaborates_obj

/-! ## Functions with several signatures -/

theorem split_single {a signature : Signature} {earlier later : List Signature}
    (h : [a] = earlier ++ signature :: later) : earlier = [] := by
  cases earlier with
  | nil => rfl
  | cons _ rest => cases rest <;> cases h

theorem eq_of_split_single {a signature : Signature} {earlier later : List Signature}
    (h : [a] = earlier ++ signature :: later) : signature = a := by
  rw [split_single h] at h
  cases h
  rfl

theorem split_pair {a b s signature : Signature} {earlier later : List Signature}
    (h : [a, b] = earlier ++ signature :: later) (hs : s ∈ earlier) : s = a ∧ signature = b := by
  cases earlier with
  | nil => cases hs
  | cons c rest =>
      cases rest with
      | nil =>
          cases h
          exact ⟨List.mem_singleton.1 hs, rfl⟩
      | cons _ rest => cases rest <;> cases h

/-- Where two signatures of a function take the same number of arguments, the later one takes texts
and the earlier one refuses them. -/
theorem param_of_overlap {fn : Builtin} {earlier later : List Signature} {s signature : Signature}
    {n : Nat} (hsplit : fn.signatures = earlier ++ signature :: later) (hs : s ∈ earlier)
    (hearlier : s.takes n = true) (htakes : signature.takes n = true) :
    ∀ i, i < n → signature.param i = .string ∧ (s.param i).refusesText = true := by
  have hsingle : ∀ a, fn.signatures = [a] → False := by
    intro a ha
    rw [split_single (ha.symm.trans hsplit)] at hs
    cases hs
  have harity : ∀ a b, fn.signatures = [.exactly a, .exactly b] → a.length = n ∧ b.length = n := by
    intro a b hab
    obtain ⟨rfl, rfl⟩ := split_pair (hab.symm.trans hsplit) hs
    exact ⟨of_decide_eq_true hearlier, of_decide_eq_true htakes⟩
  cases fn with
  | get => cases (harity _ _ rfl).1; cases (harity _ _ rfl).2
  | has => cases (harity _ _ rfl).1; cases (harity _ _ rfl).2
  | minus => cases (harity _ _ rfl).1; cases (harity _ _ rfl).2
  | length =>
      obtain ⟨rfl, rfl⟩ := split_pair hsplit hs
      cases (harity _ _ rfl).1
      decide
  | less =>
      obtain ⟨rfl, rfl⟩ := split_pair hsplit hs
      cases (harity _ _ rfl).1
      decide
  | lessEqual =>
      obtain ⟨rfl, rfl⟩ := split_pair hsplit hs
      cases (harity _ _ rfl).1
      decide
  | greater =>
      obtain ⟨rfl, rfl⟩ := split_pair hsplit hs
      cases (harity _ _ rfl).1
      decide
  | greaterEqual =>
      obtain ⟨rfl, rfl⟩ := split_pair hsplit hs
      cases (harity _ _ rfl).1
      decide
  | _ => exact absurd rfl (hsingle _)

theorem each_refit {ctx : Context} {s signature : Signature} {i : Nat} {js : List Json}
    {es : List Expr} (h : Each ctx (fun i => some (signature.param i)) i js es)
    (hparam : ∀ k, i ≤ k → k < i + js.length →
      signature.param k = .string ∧ (s.param k).refusesText = true)
    (hrefit : s.RefitsFrom ctx.interpolators i es) :
    ∃ ds, Each ctx (fun i => some (s.param i)) i js ds := by
  induction h with
  | nil i => exact ⟨[], .nil i⟩
  | @cons i j e js es hj _ ih =>
      obtain ⟨hstring, hrefuses⟩ := hparam i (Nat.le_refl i) (by simp)
      obtain ⟨ds, hds⟩ := ih (fun k hk hlt => hparam k (by omega) (by simp; omega)) hrefit.2
      have hcolor := Ty.ne_color_of_refusesText hrefuses
      obtain ⟨d, hd⟩ := Elaborates.refit hcolor j _ (congrArg some hstring) hj hrefit.1
      exact ⟨d :: ds, .cons hd hds⟩

/-- Arguments that are checked against a later signature do not refit an earlier one. -/
theorem FirstSignature.not_refits {ctx : Context} {fn : Builtin} {js : List Json}
    {signature : Signature} {es : List Expr}
    (h : FirstSignature ctx js fn.signatures signature es) :
    ∃ earlier later, fn.signatures = earlier ++ signature :: later ∧
      ∀ s ∈ earlier, s.takes js.length = true → ¬ s.RefitsFrom ctx.interpolators 0 es := by
  obtain ⟨earlier, later, hsplit, hearlier, htakes, heach⟩ := h
  refine ⟨earlier, later, hsplit, ?_⟩
  intro s hs hs' hrefit
  have hparam := param_of_overlap hsplit hs hs' htakes
  exact hearlier s hs ⟨hs', each_refit heach (fun k _ hk => hparam k (by omega)) hrefit⟩

end Typing
end MapStyle
