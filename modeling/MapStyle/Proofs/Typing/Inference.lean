/-
# `MapStyle.Proofs.Typing.Inference` — a type that was found may as well have been expected

Without an expected type, `coalesce`, `match` and `curve` take on the type of the first output that
is not merely null, and the outputs before it are checked against nothing.  Expecting that type from
the start checks these outputs as well, down to the bottom of the document.  It makes no difference:
the document still checks, to a tree that differs from the first one in the types that null nodes
are given and in nothing that shows (`compile_of_ty`).

* `Expr.unshared`: a tree without the types that nothing looks at.  Wire form and evaluation are
  those of the tree (`toJson_unshared`, `eval_unshared`).
* `Typing.infers`: a document whose type is null checks against every type, and one of another type
  checks against that, both to the same tree but for such types.  The types have to be among those
  that the outputs of a node agree on while the check goes along them (`Agreed`).
-/
import MapStyle.Proofs.Expr.Trees
import MapStyle.Proofs.Typing.Judgement

namespace MapStyle

/-! ## Trees without the types that outputs share -/

namespace Expr

/-- A node without its type, if all that it does is to choose among its outputs. -/
def unsharedNode : Expr → Expr
  | .coalesce p _ args => .coalesce p .null args
  | .select p _ inputTy input table labels outputs otherwise =>
    .select p .null inputTy input table labels outputs otherwise
  | .curve p t kind input labels outputs =>
    .curve p (if kind.isStep then .null else t) kind input labels outputs
  | e => e

/-- A tree without the types of nodes that only choose among their outputs. -/
def unshared (e : Expr) : Expr := e.mapNodes unsharedNode

theorem unshared_eq (e : Expr) : e.unshared = unsharedNode (e.mapChildren unshared) :=
  mapNodes_eq _ e

theorem toJson_unshared (e : Expr) : e.unshared.toJson = e.toJson :=
  compositional_toJson.mapNodes (fun e => by cases e <;> rfl) e

/-- A stepped curve does not blend, so the type of its outputs does not matter. -/
theorem curveRule_step (interpolators : Interpolators) (t t' : Ty) {kind : Interpolation}
    (hkind : kind.isStep = true) (labels : List Float) :
    curveRule interpolators t kind labels = curveRule interpolators t' kind labels := by
  simp only [curveRule, Curve.value, hkind, if_true]

theorem eval_unsharedNode (scene : Scene) (e : Expr) :
    eval scene (unsharedNode e) = eval scene e := by
  cases e with
  | curve p t kind input labels outputs =>
      simp only [unsharedNode, eval]
      split
      · rename_i hkind
        rw [curveRule_step _ .null t hkind]
      · rfl
  | _ => rfl

/-- Evaluation does not look at types that outputs share. -/
theorem eval_unshared (scene : Scene) (e : Expr) : eval scene e.unshared = eval scene e :=
  (compositional_eval scene).mapNodes (eval_unsharedNode scene) e

end Expr

open Reporting

/-! ## Chains of steps from another start -/

/-- Steps that can be taken from another state each, to results that look the same, can be taken
from the other start.  That a state is right is known at the end and carried back. -/
theorem Reporting.Steps.from {σ α β γ : Type} {step step' : σ → α → Reporting (σ × Option β)}
    (right : σ → Prop) (other : σ → σ) {look : β → γ} {as : List α}
    (hstep : ∀ a ∈ as, ∀ {s mid : σ} {b : β}, Clean (step s a) (mid, some b) → right mid →
      right s ∧ ∃ b', Clean (step' (other s) a) (other mid, some b') ∧ look b' = look b)
    {s last : σ} {bs : List β} (h : Steps step s as last bs) (hlast : right last) :
    right s ∧ ∃ bs', Steps step' (other s) as (other last) bs' ∧ bs'.map look = bs.map look := by
  induction h with
  | nil => exact ⟨hlast, [], .nil _, rfl⟩
  | cons hfirst _ ih =>
      obtain ⟨ha, has⟩ := List.forall_mem_cons.1 hstep
      obtain ⟨hmid, bs', hrest, hlooks⟩ := ih has hlast
      obtain ⟨hs, b', hfirst', hlook⟩ := ha hfirst hmid
      exact ⟨hs, b' :: bs', .cons hfirst' hrest, by rw [List.map_cons, hlook, hlooks]; rfl⟩

namespace Typing

/-! ## Outputs -/

/-- Nothing is known yet of the type that outputs share, or it is the right one. -/
def Agreed (t : Ty) (shared : Option Ty) : Prop := shared = none ∨ shared = some t

/-- A document that checks to a null type, or to the type `t`, without an expected type checks
against `t`, and the trees look the same. -/
def Infers (j : Json) : Prop :=
  ∀ (ctx : Context) (e : Expr) (t : Ty), ctx.expected = none →
    ctx.interpolators.supports .null = false → Elaborates ctx j e → e.ty = .null ∨ e.ty = t →
    ∃ d, Elaborates (ctx.expecting t) j d ∧ d.unshared = e.unshared ∧ (d.ty = t ∨ d.ty = e.ty)

theorem Infers.output {j : Json} (h : Infers j) {ctx : Context}
    (hnull : ctx.interpolators.supports .null = false) {i : Nat} {shared : Option Ty} {e : Expr}
    {t : Ty} (he : Elaborates (ctx.child i shared) j e) (hagreed : Agreed t (learn shared e)) :
    Agreed t shared ∧ ∃ d, Elaborates (ctx.child i (some t)) j d ∧ d.unshared = e.unshared := by
  cases shared with
  | some u =>
      obtain rfl : u = t := by simpa [Agreed, learn] using hagreed
      exact ⟨.inr rfl, e, he, rfl⟩
  | none =>
      have hty : e.ty = .null ∨ e.ty = t := by
        by_cases hety : e.ty = .null
        · exact .inl hety
        · simpa [Agreed, learn, hety] using hagreed
      obtain ⟨d, hd, hsame, _⟩ := h (ctx.child i none) e t rfl hnull he hty
      exact ⟨.inl rfl, d, hd, hsame⟩

theorem learnAll_ne_null (es : List Expr) : learnAll none es ≠ some .null := by
  induction es with
  | nil => nofun
  | cons e es ih =>
      show learnAll (learn none e) es ≠ some .null
      rw [learn]
      split
      · exact ih
      · rename_i hty
        rw [learnAll_some]
        exact fun heq => hty (Option.some.inj heq)

/-- Outputs agree on the type that a node takes on, unless they are all null. -/
theorem agreed_of_ty {shared : Option Ty} (hne : shared ≠ some .null) {otherwise t : Ty}
    (h : shared.getD otherwise = .null ∨ shared.getD otherwise = t) : Agreed t shared := by
  cases shared with
  | none => exact .inl rfl
  | some u =>
      rcases h with rfl | rfl
      · exact absurd rfl hne
      · exact .inr rfl

section

variable {ctx : Context} {t : Ty} (hnull : ctx.interpolators.supports .null = false)

include hnull

theorem steps_checkOutput_infer {js : List Json} (ih : ∀ j ∈ js, Infers j) {k : Nat}
    {shared last : Option Ty} {es : List Expr}
    (h : Steps (fun shared (arg, i) => Arg.checkOutput arg ctx i shared) shared
      ((js.map argOf).zipIdx k) last es) (hlast : Agreed t last) :
    ∃ ds, Steps (fun shared (arg, i) => Arg.checkOutput arg (ctx.expecting t) i shared) (some t)
      ((js.map argOf).zipIdx k) (some t) ds ∧ ds.map Expr.unshared = es.map Expr.unshared := by
  refine (h.from (Agreed t) (fun _ => some t) ?_ hlast).2
  intro a ha shared mid e hstep hmid
  obtain ⟨j, hj, i, rfl⟩ := exists_of_mem_args ha
  obtain ⟨he, rfl⟩ := clean_checkOutput.1 hstep
  obtain ⟨hshared, d, hd, hsame⟩ := (ih j hj).output hnull he hmid
  exact ⟨hshared, d, clean_checkOutput.2 ⟨hd, rfl⟩, hsame⟩

theorem steps_nextBranch_infer {branches : List (Json × Json)}
    (ih : ∀ p ∈ branches, Infers p.2) {k : Nat} {seen last : BranchesSeen}
    {checked : List (List Label × Expr)}
    (h : Steps (nextBranch ctx) seen ((argPairs branches).zipIdx k) last checked)
    (hlast : Agreed t last.shared) :
    ∃ ds, Steps (nextBranch (ctx.expecting t)) ⟨seen.labels, some t⟩
      ((argPairs branches).zipIdx k) ⟨last.labels, some t⟩ ds ∧
      ds.map (Prod.map id Expr.unshared) = checked.map (Prod.map id Expr.unshared) := by
  refine (h.from (fun s => Agreed t s.shared) (fun s => ⟨s.labels, some t⟩) ?_ hlast).2
  intro a ha seen mid b hstep hmid
  obtain ⟨p, hp, k, rfl⟩ := exists_of_mem_argPairs ha
  obtain ⟨ls, e⟩ := b
  obtain ⟨hne, hls, htakes, he, rfl⟩ := clean_nextBranch.1 hstep
  obtain ⟨hshared, d, hd, hsame⟩ := (ih p hp).output hnull he hmid
  exact ⟨hshared, (ls, d), clean_nextBranch.2 ⟨hne, hls, htakes, hd, rfl⟩,
    congrArg (Prod.mk ls) hsame⟩

theorem steps_nextStop_infer {stops : List (Json × Json)} (ih : ∀ p ∈ stops, Infers p.2) {k : Nat}
    {seen last : StopsSeen} {checked : List (Float × Expr)}
    (h : Steps (nextStop ctx) seen ((argPairs stops).zipIdx k) last checked)
    (hlast : Agreed t last.shared) :
    ∃ ds, Steps (nextStop (ctx.expecting t)) ⟨some t, seen.last⟩ ((argPairs stops).zipIdx k)
      ⟨some t, last.last⟩ ds ∧
      ds.map (Prod.map id Expr.unshared) = checked.map (Prod.map id Expr.unshared) := by
  refine (h.from (fun s => Agreed t s.shared) (fun s => ⟨some t, s.last⟩) ?_ hlast).2
  intro a ha seen mid b hstep hmid
  obtain ⟨p, hp, k, rfl⟩ := exists_of_mem_argPairs ha
  obtain ⟨x, e⟩ := b
  obtain ⟨hx, hfollows, he, rfl⟩ := clean_nextStop.1 hstep
  obtain ⟨hshared, d, hd, hsame⟩ := (ih p hp).output hnull he hmid
  exact ⟨hshared, (x, d), clean_nextStop.2 ⟨hx, hfollows, hd, rfl⟩, congrArg (Prod.mk x) hsame⟩

end

/-! ## Forms -/

theorem unshared_pairs {α : Type} {bs cs : List (α × Expr)}
    (h : bs.map (Prod.map id Expr.unshared) = cs.map (Prod.map id Expr.unshared)) :
    bs.map (·.1) = cs.map (·.1) ∧
      (bs.map (·.2)).map Expr.unshared = (cs.map (·.2)).map Expr.unshared := by
  have hfst := congrArg (List.map Prod.fst) h
  have hsnd := congrArg (List.map Prod.snd) h
  rw [List.map_map, List.map_map] at hfst hsnd
  rw [List.map_map, List.map_map]
  exact ⟨hfst, hsnd⟩

/-- What a form checks to without an expected type it also checks to against the type that was
found, or against any type if that is null, provided that the documents below it do so. -/
def FormInfers (form : Form) : Prop :=
  ∀ (js : List Json) (ctx : Context) (e : Expr) (t : Ty), (∀ j ∈ js, Infers j) →
    ctx.expected = none → ctx.interpolators.supports .null = false →
    Clean (form (js.map argOf) ctx) (some e) → e.ty = .null ∨ e.ty = t →
    ∃ d, Clean (form (js.map argOf) (ctx.expecting t)) (some d) ∧ d.unshared = e.unshared ∧
      (d.ty = t ∨ d.ty = e.ty)

theorem Unexpecting.infers {form : Form} (h : Unexpecting form) : FormInfers form :=
  fun js ctx e t _ _ _ he _ => ⟨e, h js ctx t e he, rfl, .inr rfl⟩

/-- A literal keeps its type where that very type is expected. -/
theorem literalTy_literalTy (v : Value) :
    literalTy (some (literalTy none v)) v = literalTy none v := by
  cases v with
  | array items =>
      simp only [literalTy, Value.typeOf]
      split <;> simp_all
  | _ => rfl

theorem infers_literalOf {v : Value} {ctx : Context} {e : Expr} {t : Ty}
    (hexp : ctx.expected = none) (h : Clean (literalOf v ctx) (some e))
    (hty : e.ty = .null ∨ e.ty = t) : Clean (literalOf v (ctx.expecting t)) (some e) := by
  obtain ⟨hvalid, rfl⟩ := clean_literalOf.1 h
  refine clean_literalOf.2 ⟨hvalid, ?_⟩
  rw [hexp] at hty ⊢
  have hsame : literalTy (some t) v = literalTy none v := by
    rcases hty with hnull | rfl
    · rw [show literalTy none v = .null from hnull]
      exact literalTy_eq_null.2 (literalTy_eq_null.1 hnull)
    · exact literalTy_literalTy v
  exact congrArg (Expr.literal ctx.path · v) hsame.symm

theorem literal_infers : FormInfers literal := by
  intro js ctx e t _ hexp _ h hty
  obtain ⟨j, rfl, hj⟩ := clean_literal.1 h
  exact ⟨e, clean_literal.2 ⟨j, rfl, infers_literalOf hexp hj hty⟩, rfl, .inr rfl⟩

theorem coalesce_infers : FormInfers coalesce := by
  intro js ctx e t ih hexp hnull h hty
  obtain ⟨shared, es, hsteps, rfl⟩ := clean_coalesce.1 h
  obtain ⟨_, hshared⟩ := formedOutputs_of_steps (fun j _ => Elaborates.formed j) hsteps
  rw [hexp] at hshared
  have hagreed : Agreed t shared := by
    refine agreed_of_ty ?_ hty
    rw [hshared]
    exact learnAll_ne_null es
  obtain ⟨ds, hds, hsame⟩ := steps_checkOutput_infer hnull ih hsteps hagreed
  refine ⟨_, clean_coalesce.2 ⟨some t, ds, hds, rfl⟩, ?_, .inl rfl⟩
  rw [Expr.unshared_eq, Expr.unshared_eq (.coalesce _ _ es), Expr.mapChildren, Expr.mapChildren,
    hsame]
  rfl

theorem select_infers : FormInfers select := by
  intro js ctx e t ih hexp hnull h hty
  obtain ⟨hlen, input, rest, branches, last, rfl, hpairs, seen, checked, d, otherwise, inputTy,
    hbranches, hinputTy, hd, hotherwise, rfl⟩ := clean_select.1 h
  obtain ⟨hmem, hlast⟩ := mem_of_inPairs hpairs
  obtain ⟨_, ihrest⟩ := List.forall_mem_cons.1 ih
  obtain ⟨_, hshared, _⟩ := formed_of_branches (fun p _ => Elaborates.formed p.2) hbranches
  rw [hexp] at hshared
  have hagreed : Agreed t seen.shared := by
    refine agreed_of_ty ?_ hty
    rw [hshared]
    exact learnAll_ne_null _
  obtain ⟨cs, hcs, hsame⟩ :=
    steps_nextBranch_infer hnull (fun p hp => ihrest _ (hmem p hp).2) hbranches hagreed
  -- The last output only has to agree where the branches have no type to share.
  have hlearn : Agreed t (learn seen.shared otherwise) := by
    rcases hagreed with hnone | hsome
    · rw [hnone] at hty ⊢
      rw [learn]
      split
      · exact .inl rfl
      · rename_i hne
        exact .inr (congrArg some (hty.resolve_left hne))
    · rw [hsome]
      exact .inr rfl
  obtain ⟨_, o, ho, hsameLast⟩ := (ihrest _ (hlast _ rfl)).output hnull hotherwise hlearn
  refine ⟨_, clean_select.2 ⟨hlen, input, rest, branches, last, rfl, hpairs, _, cs, d, o, inputTy,
    hcs, hinputTy, hd, ho, rfl⟩, ?_, .inl rfl⟩
  obtain ⟨hlabels, houtputs⟩ := unshared_pairs hsame
  rw [Expr.unshared_eq, Expr.unshared_eq (.select ..), Expr.mapChildren, Expr.mapChildren, hlabels,
    houtputs, hsameLast]
  rfl

theorem curve_infers : FormInfers curve := by
  intro js ctx e t ih hexp hnull h hty
  obtain ⟨hlen, description, input, rest, stops, rfl, hpairs, kind, d, seen, checked, hkind, hd,
    hstops, hblend, rfl⟩ := clean_curve.1 h
  obtain ⟨hmem, _⟩ := mem_of_inPairs hpairs
  obtain ⟨_, ih⟩ := List.forall_mem_cons.1 ih
  obtain ⟨_, ihrest⟩ := List.forall_mem_cons.1 ih
  obtain ⟨_, hshared, _⟩ := formed_of_stops (fun p _ => Elaborates.formed p.2) hstops
  rw [hexp] at hshared
  have hagreed : Agreed t seen.shared := by
    refine agreed_of_ty ?_ hty
    rw [hshared]
    exact learnAll_ne_null _
  obtain ⟨cs, hcs, hsame⟩ :=
    steps_nextStop_infer hnull (fun p hp => ihrest _ (hmem p hp).2) hstops hagreed
  -- Outputs that are all null can only be stepped, and then the type is not looked at.
  have htype : kind.isStep = true ∨ seen.shared.getD .null = t := by
    rcases hagreed with hnone | hsome
    · rw [hnone] at hblend
      exact .inl (by simpa [hnull] using hblend)
    · exact .inr (by rw [hsome]; rfl)
  have hblend' : (kind.isStep || ctx.interpolators.supports t) = true := by
    rcases htype with hstep | heq
    · rw [hstep]
      rfl
    · rwa [heq] at hblend
  refine ⟨_, clean_curve.2 ⟨hlen, description, input, rest, stops, rfl, hpairs, kind, d, _, cs,
    hkind, hd, hcs, hblend', rfl⟩, ?_, .inl rfl⟩
  obtain ⟨hlabels, houtputs⟩ := unshared_pairs hsame
  have hshown : (if kind.isStep then Ty.null else t) =
      if kind.isStep then Ty.null else seen.shared.getD .null := by
    rcases htype with hstep | heq
    · rw [if_pos hstep, if_pos hstep]
    · rw [heq]
  rw [Expr.unshared_eq, Expr.unshared_eq (.curve ..), Expr.mapChildren, Expr.mapChildren, hlabels,
    houtputs]
  exact congrArg (Expr.curve _ · _ _ _ _) hshown

theorem letIn_infers : FormInfers letIn := by
  intro js ctx e t ih hexp hnull h hty
  obtain ⟨hlen, bindings, last, hpairs, bound, body, hbound, hbody, rfl⟩ := clean_letIn.1 h
  obtain ⟨_, hlast⟩ := mem_of_inPairs hpairs
  obtain ⟨d, hd, hsame, hdty⟩ :=
    ih last (hlast _ rfl) (ctx.childWith _ _) body t hexp hnull hbody hty
  refine ⟨_, clean_letIn.2 ⟨hlen, bindings, last, hpairs, bound, d, steps_bindIn_expecting hbound,
    hd, rfl⟩, ?_, hdty⟩
  rw [Expr.unshared_eq, Expr.unshared_eq (.letIn ..), Expr.mapChildren, Expr.mapChildren, hsame]
  rfl

theorem IsForm.infers {form : Form} (h : IsForm form) : FormInfers form := by
  cases h with
  | literal => exact literal_infers
  | coalesce => exact coalesce_infers
  | select => exact select_infers
  | curve => exact curve_infers
  | letIn => exact letIn_infers
  | var => exact unexpecting_var.infers
  | assertion => exact (unexpecting_assertion _).infers
  | arrayAssertion => exact unexpecting_arrayAssertion.infers
  | call fn => exact (unexpecting_call fn).infers

/-! ## Documents -/

theorem Conforms.eq_of_none {d e : Expr} (h : Conforms none d e) : e = d := by
  cases h with
  | kept => rfl
  | colored h => cases h
  | asserted h => cases h

theorem kept_of_ty {d : Expr} {t u : Ty} (hu : u = .null ∨ u = t) (hd : d.ty = t ∨ d.ty = u) :
    Conforms (some t) d d := by
  refine .kept ?_
  rcases hd with hd | hd
  · exact hd ▸ admits_self _
  · rcases hu with rfl | rfl
    · exact hd ▸ admits_null _
    · exact hd ▸ admits_self _

theorem scalar_infers {j : Json} (hj : IsScalar j) : Infers j := by
  intro ctx e t hexp _ h hty
  obtain ⟨d, hd, hconf⟩ := (elaborates_scalar hj).1 h
  rw [hexp] at hconf
  cases hconf.eq_of_none
  rcases clean_scalar.1 hd with ⟨_, _, _, hcolor, _⟩ | ⟨_, hliteral⟩
  · rw [hexp] at hcolor
    cases hcolor
  · have htext : ∀ s, j = .str s → (ctx.expecting t).expected ≠ some .color := by
      rintro s rfl hcolor
      obtain ⟨_, rfl⟩ := clean_literalOf.1 hliteral
      cases hcolor
      rcases hty with hty | hty <;> cases hty
    have hclean : Clean (scalar j (ctx.expecting t)) (some e) :=
      clean_scalar.2 (.inr ⟨htext, infers_literalOf hexp hliteral hty⟩)
    exact ⟨e, (elaborates_scalar hj).2 ⟨e, hclean, kept_of_ty hty (.inr rfl)⟩, rfl, .inr rfl⟩

theorem infers (j : Json) : Infers j := by
  induction j using json_induction with
  | scalar j hj => exact scalar_infers hj
  | arr items ih =>
      intro ctx e t hexp hnull h hty
      obtain ⟨name, js, form, d, rfl, hform, hd, hconf⟩ := elaborates_arr.1 h
      rw [hexp] at hconf
      cases hconf.eq_of_none
      obtain ⟨d, hclean, hsame, hdty⟩ := (isForm hform).infers js ctx e t
        (fun j hj => ih j (List.mem_cons_of_mem _ hj)) hexp hnull hd hty
      -- the form was told what to expect, so nothing is put around its tree
      have hkept : Conforms (some t) d d := kept_of_ty hty hdty
      exact ⟨d, elaborates_arr.2 ⟨name, js, form, d, rfl, hform, hclean, hkept⟩, hsame, hdty⟩
  | obj fields =>
      intro _ _ _ _ _ h _
      exact absurd h not_elaborates_obj

end Typing

/-- What compiles without an expected type compiles against the type that it turns out to have, to
an expression of that type with the same wire form and the same outcomes. -/
theorem compile_of_ty {j : Json} {c : Compiled} (h : compile j none .standard = .ok c) :
    ∃ d, compile j (some c.ty) .standard = .ok d ∧ d.ty = c.ty ∧ d.toJson = c.toJson ∧
      ∀ easings zoom properties,
        d.evaluate easings zoom properties = c.evaluate easings zoom properties := by
  obtain ⟨root, _⟩ := c
  obtain ⟨rfl, _, helab⟩ := formed_of_compile h
  obtain ⟨d, hd, hsame, hty⟩ :=
    Typing.infers j (.root none .standard) root root.ty rfl rfl helab (.inr rfl)
  refine ⟨⟨d, .standard⟩, compile_of_elaborates hd, hty.elim id id, ?_, ?_⟩
  · show d.toJson = root.toJson
    rw [← d.toJson_unshared, hsame, root.toJson_unshared]
  · intro easings zoom properties
    simp only [Compiled.evaluate]
    rw [← d.eval_unshared, hsame, root.eval_unshared]

/-- An output that is a null of its own kind, before one that is a text. -/
def nullFirst : Compiled :=
  ⟨.coalesce [] .string [.coalesce [1] .null [.literal [1, 1] .null .null],
    .call [2] .string .upcase [.literal [2, 1] .string (.string "a")]], .standard⟩

theorem compile_nullFirst :
    compile (.call "coalesce" [.call "coalesce" [.null], .call "upcase" [.str "a"]]) none
        .standard = .ok nullFirst ∧
      ∃ d, compile (.call "coalesce" [.call "coalesce" [.null], .call "upcase" [.str "a"]])
          (some .string) .standard = .ok d ∧
        d.ty = .string ∧ d.toJson = nullFirst.toJson ∧ ∀ easings zoom properties,
          d.evaluate easings zoom properties = nullFirst.evaluate easings zoom properties := by
  have h : compile (.call "coalesce" [.call "coalesce" [.null], .call "upcase" [.str "a"]]) none
      .standard = .ok nullFirst := rfl
  exact ⟨h, compile_of_ty h⟩

end MapStyle
