/-
# `MapStyle.Proofs.Typing.Placement` — checking does not look at the place

The path of a part of a document is carried along while the part is checked, and put on every node
and every diagnostic, but nothing is decided by it.  So whatever is checked below some path yields
the tree and the diagnostics that it yields at the root, with the path in front of theirs
(`Typing.shifts_check`), and what a document is without its place, in particular its type and how it
is evaluated, is the same wherever it stands (`Typing.Elaborates.move`).

`Reporting.Shifts p f q q'` says this of two computations: that `q'`, started on diagnostics that
are moved below `p`, ends on those of `q` moved below `p`, and yields `f` of what `q` yields.  The
proof follows the document as `adds_check` does, one lemma for each form.
-/
import MapStyle.Proofs.Expr.Trees
import MapStyle.Proofs.Typing.Forms

namespace MapStyle

/-! ## Below a path -/

/-- The surroundings of a part when all of the document is moved below a path. -/
def Context.under (p : Path) (ctx : Context) : Context := { ctx with path := p ++ ctx.path }

/-- A diagnostic, moved below a path. -/
def Diagnostic.under (p : Path) (d : Diagnostic) : Diagnostic := { d with path := p ++ d.path }

namespace Expr

/-- A tree, with all of its nodes moved below a path. -/
def under (p : Path) (e : Expr) : Expr := e.mapNodes fun n => n.withPath (p ++ n.path)

variable {p : Path}

theorem under_eq (e : Expr) :
    e.under p = (e.mapChildren (under p)).withPath (p ++ (e.mapChildren (under p)).path) :=
  mapNodes_eq _ e

@[simp] theorem ty_under (e : Expr) : (e.under p).ty = e.ty :=
  compositional_ty.mapNodes (fun n => ty_withPath _ n) e

@[simp] theorem path_under (e : Expr) : (e.under p).path = p ++ e.path := by
  rw [under_eq, path_withPath]
  cases e <;> rfl

/-- Nothing but the paths is changed. -/
theorem unplaced_under (e : Expr) : (e.under p).unplaced = e.unplaced :=
  (compositional_mapNodes _).mapNodes (fun n => unplaced_withPath _ n) e

end Expr

namespace Context

variable {p : Path}

theorem under_child (ctx : Context) (i : Nat) (expected : Option Ty) :
    (ctx.under p).child i expected = (ctx.child i expected).under p := by
  simp only [under, child, List.append_assoc]

theorem under_childWith (ctx : Context) (i : Nat) (names : List (String × Ty)) :
    (ctx.under p).childWith i names = (ctx.childWith i names).under p := by
  simp only [under, childWith, List.append_assoc]

end Context

/-! ## Computations -/

namespace Reporting

variable {α β γ σ : Type} {p : Path}

/-- On diagnostics that are moved below a path, a computation does what another one does without. -/
def Shifts (p : Path) (f : α → β) (q : Reporting α) (q' : Reporting β) : Prop :=
  ∀ ds, q'.run (ds.map (·.under p)) = (f (q.run ds).1, (q.run ds).2.map (·.under p))

theorem shifts_pure {f : α → β} {a : α} {b : β} (h : f a = b) : Shifts p f (pure a) (pure b) :=
  fun _ => Prod.ext h.symm rfl

theorem Shifts.bind {α' β' : Type} {f : α → α'} {g : β → β'} {q : Reporting α} {q' : Reporting α'}
    {k : α → Reporting β} {k' : α' → Reporting β'} (hq : Shifts p f q q')
    (hk : ∀ a, Shifts p g (k a) (k' (f a))) : Shifts p g (q >>= k) (q' >>= k') := by
  intro ds
  rw [run_bind, run_bind, hq ds]
  exact hk _ _

theorem shifts_add (ds : List Diagnostic) : Shifts p id (add ds) (add (ds.map (·.under p))) :=
  fun _ => Prod.ext rfl List.map_append.symm

/-- What is computed apart yields its diagnostics, which are moved too. -/
theorem Shifts.apart {f : α → β} {q : Reporting α} {q' : Reporting β} (h : Shifts p f q q') :
    Shifts p (Prod.map f (List.map (·.under p))) (apart q) (apart q') :=
  fun _ => Prod.ext (h []) rfl

theorem shifts_reportAt {f : Option α → Option β} (hf : f none = none) (ctx : Context)
    (below : Path) (c : Complaint) :
    Shifts p f (ctx.reportAt below c) ((ctx.under p).reportAt below c) := by
  have hd : [Diagnostic.mk ((ctx.under p).path ++ below) c] =
      [Diagnostic.mk (ctx.path ++ below) c].map (·.under p) :=
    congrArg (fun path => [Diagnostic.mk path c]) (List.append_assoc _ _ _)
  rw [Context.reportAt, Context.reportAt, hd]
  exact (shifts_add _).bind fun _ => shifts_pure hf

theorem shifts_report {f : Option α → Option β} (hf : f none = none) (ctx : Context)
    (c : Complaint) : Shifts p f (ctx.report c) ((ctx.under p).report c) :=
  shifts_reportAt hf ctx [] c

/-! ## Steps along a list -/

theorem allOf_map (f : α → β) (as : List (Option α)) :
    allOf (as.map (Option.map f)) = (allOf as).map (List.map f) := by
  induction as with
  | nil => rfl
  | cons a as ih =>
      cases a with
      | none => rfl
      | some a =>
          rw [List.map_cons, Option.map_some, allOf, allOf, ih]
          cases allOf as <;> rfl

variable {step step' : σ → α → Reporting (σ × Option β)} {f : β → β}

theorem shifts_along {as : List α} (hstep : ∀ a ∈ as, ∀ s,
      Shifts p (Prod.map id (Option.map f)) (step s a) (step' s a)) (s : σ) :
    Shifts p (Prod.map id (List.map (Option.map f))) (along step s as) (along step' s as) := by
  induction as generalizing s with
  | nil => exact shifts_pure rfl
  | cons a as ih =>
      obtain ⟨ha, has⟩ := List.forall_mem_cons.1 hstep
      exact (ha s).bind fun _ => (ih has _).bind fun _ => shifts_pure rfl

theorem shifts_sweep {as : List α} (hstep : ∀ a ∈ as, ∀ s,
      Shifts p (Prod.map id (Option.map f)) (step s a) (step' s a)) (s : σ) :
    Shifts p (Prod.map id (Option.map (List.map f))) (sweep step s as) (sweep step' s as) :=
  (shifts_along hstep s).bind fun _ => shifts_pure (Prod.ext rfl (allOf_map f _).symm)

/-- Steps that yield nothing with a place. -/
theorem shifts_sweep_id {as : List α}
    (hstep : ∀ a ∈ as, ∀ s, Shifts p id (step s a) (step' s a)) (s : σ) :
    Shifts p id (sweep step s as) (sweep step' s as) := by
  have hstep' : ∀ a ∈ as, ∀ s,
      Shifts p (Prod.map id (Option.map id)) (step s a) (step' s a) := by
    simpa only [Option.map_id, Prod.map_id] using hstep
  simpa only [List.map_id_fun, Option.map_id, Prod.map_id] using shifts_sweep hstep' s

end Reporting

open Reporting

/-- A check does below a path what it does without. -/
def CheckShifts (p : Path) (q : Context → Reporting (Option Expr)) : Prop :=
  ∀ ctx, Shifts p (Option.map (Expr.under p)) (q ctx) (q (ctx.under p))

variable {p : Path}

theorem shifts_checkOutput {arg : Arg} (h : CheckShifts p arg.check) (ctx : Context) (i : Nat)
    (shared : Option Ty) : Shifts p (Prod.map id (Option.map (Expr.under p)))
      (arg.checkOutput ctx i shared) (arg.checkOutput (ctx.under p) i shared) := by
  rw [Arg.checkOutput, Arg.checkOutput, Context.under_child]
  refine (h _).bind fun checked => ?_
  cases checked with
  | none => exact shifts_pure rfl
  | some e => exact shifts_pure (by simp [learn])

theorem shifts_checkIn {arg : Arg} (h : CheckShifts p arg.check) {context context' : Nat → Context}
    (hcontext : ∀ i, context' i = (context i).under p) (i : Nat) (s : Unit) :
    Shifts p (Prod.map id (Option.map (Expr.under p))) (checkIn context s (arg, i))
      (checkIn context' s (arg, i)) := by
  rw [checkIn, checkIn, hcontext]
  exact (h _).bind fun _ => shifts_pure rfl

namespace Typing

variable {args : List Arg}

/-! ## Forms -/

theorem shifts_literalOf (v : Value) : CheckShifts p (literalOf v) := by
  intro ctx
  rw [literalOf, literalOf]
  split
  · exact shifts_pure rfl
  · exact shifts_report rfl _ _

theorem shifts_scalar (j : Json) : CheckShifts p (scalar j) := by
  intro ctx
  obtain ⟨path, expected, scope, r⟩ := ctx
  simp only [scalar, Context.under]
  split
  · split
    · exact shifts_literalOf _ ⟨path, _, scope, r⟩
    · exact shifts_report rfl ⟨path, _, scope, r⟩ _
  · exact shifts_literalOf _ ⟨path, _, scope, r⟩

theorem shifts_literal (args : List Arg) : CheckShifts p (literal args) := by
  intro ctx
  simp only [literal]
  split
  · exact shifts_literalOf _ ctx
  · exact shifts_report rfl _ _

theorem shifts_label (j : Json) (i : Nat) (ctx : Context) :
    Shifts p id (label j i ctx) (label j i (ctx.under p)) := by
  unfold label
  split
  · exact shifts_pure rfl
  · dsimp only
    split
    · exact shifts_reportAt rfl _ _ _
    · split
      · exact shifts_pure rfl
      · exact shifts_reportAt rfl _ _ _
  · exact shifts_reportAt rfl _ _ _

theorem shifts_nextLabel (ctx : Context) (branch i : Nat) (seen : LabelsSeen) (j : Json) :
    Shifts p id (nextLabel ctx branch i seen j)
      (nextLabel (ctx.under p) branch i seen j) := by
  refine (shifts_label j i ctx).bind fun checked => ?_
  cases checked with
  | none => exact shifts_pure rfl
  | some l =>
      dsimp only [id]
      split
      · exact (shifts_reportAt rfl _ _ _).bind fun _ => shifts_pure rfl
      · split
        · exact (shifts_reportAt rfl _ _ _).bind fun _ => shifts_pure rfl
        · exact shifts_pure rfl

theorem shifts_nextBranch {output : Arg} (h : CheckShifts p output.check) (labels : Arg) (k : Nat)
    (ctx : Context) (seen : BranchesSeen) :
    Shifts p (Prod.map id (Option.map (Prod.map id (Expr.under p))))
      (nextBranch ctx seen ((labels, output), k))
      (nextBranch (ctx.under p) seen ((labels, output), k)) := by
  rw [nextBranch, nextBranch]
  dsimp only
  split
  · exact (shifts_reportAt rfl _ _ _).bind fun _ => shifts_pure rfl
  · refine (shifts_sweep_id (fun j _ s => shifts_nextLabel _ _ _ s j) _).bind fun known => ?_
    refine (shifts_checkOutput h _ _ _).bind fun checked => ?_
    obtain ⟨known, ls⟩ := known
    obtain ⟨shared, e⟩ := checked
    cases ls <;> cases e <;> exact shifts_pure rfl

theorem shifts_interpolationOf (name : Json) (parameters : List Json) (ctx : Context) :
    Shifts p id (interpolationOf name parameters ctx)
      (interpolationOf name parameters (ctx.under p)) := by
  simp only [interpolationOf]
  split
  · exact shifts_pure rfl
  · exact shifts_pure rfl
  · split
    · exact shifts_pure rfl
    · exact shifts_reportAt rfl _ _ _
  · generalize (parameters.filterMap Json.num?).filter (inRange 0 1) = points
    split
    · exact shifts_pure rfl
    · exact shifts_reportAt rfl _ _ _
  · exact shifts_reportAt rfl _ _ _

theorem shifts_interpolation (j : Json) (ctx : Context) :
    Shifts p id (interpolation j ctx) (interpolation j (ctx.under p)) := by
  simp only [interpolation]
  split
  · exact shifts_interpolationOf _ _ _
  · exact shifts_reportAt rfl _ _ _

theorem shifts_nextStop {output : Arg} (h : CheckShifts p output.check) (label : Arg) (k : Nat)
    (ctx : Context) (seen : StopsSeen) :
    Shifts p (Prod.map id (Option.map (Prod.map id (Expr.under p))))
      (nextStop ctx seen ((label, output), k))
      (nextStop (ctx.under p) seen ((label, output), k)) := by
  unfold nextStop
  dsimp only
  split
  · exact (shifts_reportAt rfl _ _ _).bind fun _ => shifts_pure rfl
  · split
    · exact (shifts_reportAt rfl _ _ _).bind fun _ => shifts_pure rfl
    · split
      · exact (shifts_reportAt rfl _ _ _).bind fun _ => shifts_pure rfl
      · refine (shifts_checkOutput h _ _ _).bind fun checked => ?_
        obtain ⟨shared, e⟩ := checked
        cases e <;> exact shifts_pure rfl

theorem map_ty_under (es : List Expr) : (es.map (Expr.under p)).map Expr.ty = es.map Expr.ty := by
  rw [List.map_map]
  exact List.map_congr_left fun e _ => Expr.ty_under e

theorem map_fst_under {α : Type} (checked : List (α × Expr)) :
    (checked.map (Prod.map id (Expr.under p))).map (·.1) = checked.map (·.1) := by
  rw [List.map_map]
  rfl

theorem map_names_under (bound : List (String × Expr)) :
    (bound.map (Prod.map id (Expr.under p))).map (fun (name, e) => (name, e.ty)) =
      bound.map fun (name, e) => (name, e.ty) := by
  rw [List.map_map]
  exact List.map_congr_left fun b _ => congrArg (Prod.mk b.1) (Expr.ty_under b.2)

theorem map_snd_under {α : Type} (checked : List (α × Expr)) :
    (checked.map (Prod.map id (Expr.under p))).map (·.2) =
      (checked.map (·.2)).map (Expr.under p) := by
  rw [List.map_map, List.map_map]
  rfl

theorem shifts_curveOf (ctx : Context) (kind : Interpolation) (input : Expr) (ty : Ty)
    (stops : List (Float × Expr)) : Shifts p (Option.map (Expr.under p))
      (curveOf ctx kind input ty stops)
      (curveOf (ctx.under p) kind (input.under p) ty (stops.map (Prod.map id (Expr.under p)))) := by
  have hinterpolators : (ctx.under p).interpolators = ctx.interpolators := rfl
  rw [curveOf, curveOf, hinterpolators]
  by_cases h : (kind.isStep || ctx.interpolators.supports ty) = true
  · rw [if_pos h, if_pos h]
    refine shifts_pure ?_
    rw [map_fst_under, map_snd_under]
    exact congrArg some (Expr.under_eq _)
  · rw [if_neg h, if_neg h]
    exact shifts_report rfl _ _

theorem shifts_nextBinding {value : Arg} (h : CheckShifts p value.check) (name : Arg) (k : Nat)
    (ctx : Context) : Shifts p (Option.map (Prod.map id (Expr.under p)))
      (nextBinding ctx ((name, value), k)) (nextBinding (ctx.under p) ((name, value), k)) := by
  unfold nextBinding
  dsimp only
  split
  · exact shifts_reportAt rfl _ _ _
  · rw [Context.under_child]
    refine (h _).bind fun checked => shifts_pure ?_
    cases checked <;> rfl

theorem shifts_var (args : List Arg) : CheckShifts p (var args) := by
  intro ctx
  obtain ⟨path, expected, scope, r⟩ := ctx
  simp only [var, Context.under]
  split
  · split
    · exact shifts_reportAt rfl ⟨path, expected, scope, r⟩ _ _
    · split
      · exact shifts_pure rfl
      · exact shifts_reportAt rfl ⟨path, expected, scope, r⟩ _ _
  · exact shifts_report rfl ⟨path, expected, scope, r⟩ _

theorem shifts_conform (e : Expr) (ctx : Context) : Shifts p (Option.map (Expr.under p))
    (conform e ctx) (conform (e.under p) (ctx.under p)) := by
  obtain ⟨path, expected, scope, r⟩ := ctx
  simp only [conform, Context.under, Expr.ty_under, Expr.path_under]
  split
  · exact shifts_pure rfl
  · split
    · exact shifts_pure rfl
    · split
      · exact shifts_pure rfl
      · split
        · exact shifts_pure rfl
        · exact shifts_report rfl ⟨path, _, scope, r⟩ _

theorem shifts_settled {q : Context → Reporting (Option Expr)} (h : CheckShifts p q) :
    CheckShifts p (settled q) := by
  intro ctx
  refine (h ctx).bind fun checked => ?_
  cases checked with
  | none => exact shifts_pure rfl
  | some e => exact shifts_conform e ctx

theorem under_callOf (fn : Builtin) (es : List Expr) (ctx : Context) :
    (callOf fn es ctx).under p = callOf fn (es.map (Expr.under p)) (ctx.under p) := by
  rw [callOf, callOf, map_ty_under]
  exact Expr.under_eq _

section Arguments

variable (hargs : ∀ arg ∈ args, CheckShifts p arg.check)

include hargs

theorem shifts_coalesce : CheckShifts p (coalesce args) := by
  intro ctx
  have hstep : ∀ a ∈ args.zipIdx 1, ∀ shared, Shifts p (Prod.map id (Option.map (Expr.under p)))
      (Arg.checkOutput a.1 ctx a.2 shared) (Arg.checkOutput a.1 (ctx.under p) a.2 shared) :=
    fun a ha shared => shifts_checkOutput (hargs a.1 (List.fst_mem_of_mem_zipIdx ha)) ctx a.2 shared
  refine (shifts_sweep hstep _).bind fun found => shifts_pure ?_
  obtain ⟨shared, _ | es⟩ := found
  · rfl
  · exact congrArg some (Expr.under_eq (.coalesce _ _ es))

theorem shifts_inputs {context context' : Nat → Context}
    (hcontext : ∀ i, context' i = (context i).under p) (k : Nat) :
    ∀ a ∈ args.zipIdx k, ∀ s, Shifts p (Prod.map id (Option.map (Expr.under p)))
      (checkIn context s a) (checkIn context' s a) :=
  fun a ha s => shifts_checkIn (hargs a.1 (List.fst_mem_of_mem_zipIdx ha)) hcontext a.2 s

theorem shifts_assertion (ty : Ty) : CheckShifts p (assertion ty args) := by
  intro ctx
  rw [assertion, assertion]
  split
  · exact shifts_report rfl _ _
  · have hsweep := shifts_sweep
      (shifts_inputs hargs (fun i => Context.under_child ctx i (some .value)) 1) ()
    refine hsweep.bind fun found => shifts_pure ?_
    obtain ⟨_, _ | es⟩ := found
    · rfl
    · exact congrArg some (Expr.under_eq (.assertion _ _ es))

theorem shifts_arrayOf (item : Ty) (len : Option Nat) {input : Arg} (h : input ∈ args) (i : Nat) :
    CheckShifts p (arrayOf item len input i) := by
  intro ctx
  rw [arrayOf, arrayOf, Context.under_child]
  refine (hargs input h _).bind fun checked => shifts_pure ?_
  cases checked <;> rfl

theorem shifts_arrayAssertion : CheckShifts p (arrayAssertion args) := by
  intro ctx
  simp only [arrayAssertion]
  split
  · exact shifts_arrayOf hargs _ _ (by simp) _ ctx
  · split
    · exact shifts_arrayOf hargs _ _ (by simp) _ ctx
    · exact shifts_reportAt rfl _ _ _
  · split
    · exact shifts_arrayOf hargs _ _ (by simp) _ ctx
    · exact shifts_reportAt rfl _ _ _
    · exact shifts_reportAt rfl _ _ _
  · exact shifts_report rfl _ _

theorem shifts_arguments (expected : Nat → Option Ty) (ctx : Context) :
    Shifts p (List.map (Option.map (Expr.under p))) (arguments args expected ctx)
      (arguments args expected (ctx.under p)) :=
  (shifts_along (shifts_inputs hargs
    (fun i => Context.under_child ctx (i + 1) (expected i)) 0) ()).bind fun _ => shifts_pure rfl

theorem shifts_withSignature (fn : Builtin) (signature : Signature) :
    CheckShifts p (withSignature fn signature args) := by
  intro ctx
  refine (shifts_arguments hargs _ ctx).bind fun checked => shifts_pure ?_
  rw [allOf_map]
  cases allOf checked with
  | none => rfl
  | some es => exact congrArg some (under_callOf fn es ctx)

theorem shifts_firstFitting (fn : Builtin) (signatures : List Signature) :
    CheckShifts p (firstFitting fn args · signatures) := by
  intro ctx
  induction signatures with
  | nil => exact shifts_pure rfl
  | cons signature rest ih =>
      dsimp only
      rw [firstFitting, firstFitting]
      split
      · refine (shifts_withSignature hargs fn signature ctx).apart.bind fun found => ?_
        obtain ⟨_ | e, _ | ⟨d, ds⟩⟩ := found
        · exact ih
        · exact ih
        · exact shifts_pure rfl
        · exact ih
      · exact ih

theorem shifts_noneFitting (fn : Builtin) : CheckShifts p (noneFitting fn args) := by
  intro ctx
  refine (shifts_arguments hargs _ ctx).apart.bind fun found => ?_
  obtain ⟨checked, _ | ⟨d, ds⟩⟩ := found
  · have htypes : ((checked.map (Option.map (Expr.under p))).filterMap id).map Expr.ty =
        (checked.filterMap id).map Expr.ty := by
      rw [List.filterMap_map, List.map_filterMap, List.map_filterMap]
      refine congrArg (List.filterMap · checked) (funext fun e => ?_)
      cases e with
      | none => rfl
      | some e => exact congrArg some (Expr.ty_under e)
    show Shifts p _ (ctx.report _) ((ctx.under p).report _)
    rw [htypes]
    exact shifts_report rfl _ _
  · exact (shifts_add _).bind fun _ => shifts_pure rfl

theorem shifts_call (fn : Builtin) : CheckShifts p (call fn args) := by
  intro ctx
  rw [call, call]
  split
  · split
    · exact shifts_withSignature hargs _ _ ctx
    · exact shifts_report rfl _ _
  · refine (shifts_firstFitting hargs fn _ ctx).bind fun found => ?_
    cases found with
    | some e => exact shifts_pure rfl
    | none => exact shifts_noneFitting hargs fn ctx

theorem shifts_select : CheckShifts p (select args) := by
  intro ctx
  simp only [select]
  split
  · exact shifts_report rfl _ _
  · split
    · rename_i input rest _
      split
      · rename_i branches last hpairs
        obtain ⟨hbranches, hlast⟩ := mem_of_inPairs hpairs
        have hrest : ∀ arg ∈ rest, CheckShifts p arg.check :=
          fun arg h => hargs arg (List.mem_cons_of_mem _ h)
        have hstep : ∀ a ∈ branches.zipIdx, ∀ seen, Shifts p
            (Prod.map id (Option.map (Prod.map id (Expr.under p)))) (nextBranch ctx seen a)
            (nextBranch (ctx.under p) seen a) := fun a ha seen =>
          shifts_nextBranch (hrest _ (hbranches _ (List.fst_mem_of_mem_zipIdx ha)).2) _ _ ctx seen
        refine (shifts_sweep hstep _).bind fun found => ?_
        obtain ⟨⟨⟨ty, table⟩, shared⟩, checked⟩ := found
        simp only [Prod.map_apply, id, Context.under_child]
        refine (hargs input List.mem_cons_self _).bind fun input => ?_
        refine (hrest last (hlast _ rfl) _).bind fun otherwise => ?_
        obtain _ | input := input
        · exact shifts_pure rfl
        obtain _ | otherwise := otherwise
        · exact shifts_pure rfl
        obtain _ | ty := ty
        · exact shifts_pure rfl
        obtain _ | checked := checked
        · exact shifts_pure rfl
        refine shifts_pure ?_
        rw [map_fst_under, map_snd_under, Expr.ty_under]
        exact congrArg some (Expr.under_eq _)
      · exact shifts_report rfl _ _
    · exact shifts_report rfl _ _

theorem shifts_curve : CheckShifts p (curve args) := by
  intro ctx
  simp only [curve]
  split
  · exact shifts_report rfl _ _
  · split
    · rename_i description input rest _
      split
      · rename_i stops hpairs
        obtain ⟨hstops, _⟩ := mem_of_inPairs hpairs
        have hrest : ∀ arg ∈ rest, CheckShifts p arg.check := fun arg h =>
          hargs arg (List.mem_cons_of_mem _ (List.mem_cons_of_mem _ h))
        rw [Context.under_child]
        refine (shifts_interpolation _ _).bind fun kind => ?_
        refine (hargs input (by simp) _).bind fun input => ?_
        have hstep : ∀ a ∈ stops.zipIdx, ∀ seen, Shifts p
            (Prod.map id (Option.map (Prod.map id (Expr.under p)))) (nextStop ctx seen a)
            (nextStop (ctx.under p) seen a) := fun a ha seen =>
          shifts_nextStop (hrest _ (hstops _ (List.fst_mem_of_mem_zipIdx ha)).2) _ _ ctx seen
        refine (shifts_sweep hstep _).bind fun found => ?_
        obtain ⟨seen, checked⟩ := found
        obtain _ | kind := kind
        · exact shifts_pure rfl
        obtain _ | input := input
        · exact shifts_pure rfl
        obtain _ | checked := checked
        · exact shifts_pure rfl
        exact shifts_curveOf ctx kind input _ checked
      · exact shifts_report rfl _ _
    · exact shifts_report rfl _ _

theorem shifts_letIn : CheckShifts p (letIn args) := by
  intro ctx
  rw [letIn, letIn]
  split
  · exact shifts_report rfl _ _
  · split
    · rename_i bindings last hpairs
      obtain ⟨hbindings, hlast⟩ := mem_of_inPairs hpairs
      have hstep : ∀ a ∈ bindings.zipIdx, ∀ s, Shifts p
          (Prod.map id (Option.map (Prod.map id (Expr.under p)))) (bindIn ctx s a)
          (bindIn (ctx.under p) s a) := fun a ha s =>
        (shifts_nextBinding (hargs _ (hbindings _ (List.fst_mem_of_mem_zipIdx ha)).2) _ _
          ctx).bind fun _ => shifts_pure rfl
      refine (shifts_sweep hstep ()).bind fun found => ?_
      obtain ⟨_, _ | bound⟩ := found
      · exact shifts_pure rfl
      dsimp only [Prod.map_apply, Option.map_some]
      rw [map_names_under, Context.under_childWith]
      refine (hargs last (hlast _ rfl) _).bind fun checked => shifts_pure ?_
      obtain _ | body := checked
      · rfl
      rw [map_fst_under, map_snd_under]
      exact congrArg some (Expr.under_eq _)
    · exact shifts_report rfl _ _

theorem shifts_form {name : String} {form : Form} (h : form? name = some form) :
    CheckShifts p (form args) := by
  cases isForm h with
  | literal => exact shifts_literal args
  | coalesce => exact shifts_coalesce hargs
  | select => exact shifts_select hargs
  | curve => exact shifts_curve hargs
  | letIn => exact shifts_letIn hargs
  | var => exact shifts_var args
  | assertion _ => exact shifts_assertion hargs _
  | arrayAssertion => exact shifts_arrayAssertion hargs
  | call fn => exact shifts_call hargs fn

theorem shifts_applied : CheckShifts p (applied args) := by
  intro ctx
  simp only [applied]
  split
  · exact shifts_report rfl _ _
  · split
    · exact shifts_reportAt rfl _ _ _
    · split
      · exact shifts_reportAt rfl _ _ _
      · rename_i form hform
        exact shifts_form (fun arg h => hargs arg (List.mem_cons_of_mem _ h)) hform ctx

end Arguments

/-! ## Documents -/

mutual

/-- Below a path, a document checks to the tree that it checks to without, and is reported the same
diagnostics, with the path in front of all of their paths. -/
theorem shifts_check : ∀ j : Json, CheckShifts p (check j)
  | .null => shifts_settled (shifts_scalar _)
  | .bool _ => shifts_settled (shifts_scalar _)
  | .num _ => shifts_settled (shifts_scalar _)
  | .str _ => shifts_settled (shifts_scalar _)
  | .arr items => shifts_settled (shifts_applied (shifts_checks items))
  | .obj _ => fun _ => shifts_report rfl _ _

theorem shifts_checks : ∀ (js : List Json), ∀ arg ∈ checks js, CheckShifts p arg.check
  | [], _, h => nomatch h
  | j :: js, arg, h => by
      rcases List.mem_cons.1 h with rfl | h
      · exact shifts_check j
      · exact shifts_checks js arg h

end

/-- The tree that a document checks to is the same wherever it stands, but for the paths. -/
theorem Elaborates.move {path path' : Path} {expected : Option Ty} {scope : List (String × Ty)}
    {r : Interpolators} {j : Json} {e : Expr} (h : Elaborates ⟨path, expected, scope, r⟩ j e) :
    ∃ e', Elaborates ⟨path', expected, scope, r⟩ j e' ∧ e'.unplaced = e.unplaced := by
  -- both places are below the root
  let ctx : Context := ⟨[], expected, scope, r⟩
  have hunder : ∀ path, (check j ⟨path, expected, scope, r⟩).run [] =
      (((check j ctx).run []).1.map (Expr.under path),
        ((check j ctx).run []).2.map (·.under path)) := by
    intro path
    have hctx : ctx.under path = ⟨path, expected, scope, r⟩ :=
      congrArg (Context.mk · expected scope r) (List.append_nil path)
    rw [← hctx]
    exact shifts_check j ctx []
  obtain ⟨he, hds⟩ := Prod.mk.inj ((hunder path).symm.trans h)
  obtain ⟨d, hd, rfl⟩ := Option.map_eq_some_iff.1 he
  refine ⟨d.under path', ?_, by rw [Expr.unplaced_under, Expr.unplaced_under]⟩
  rw [Elaborates, Clean, hunder path', hd, List.map_eq_nil_iff.1 hds]
  rfl

end Typing
end MapStyle
