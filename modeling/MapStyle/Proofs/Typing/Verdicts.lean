/-
# `MapStyle.Proofs.Typing.Verdicts` — a check fails exactly when it reports

Checking goes on past a mistake, tries signatures whose mistakes do not count, and keeps what
failed in results that are looked at much later.  Nothing is lost on the way: a check yields no tree
exactly when it adds a diagnostic, so it neither fails in silence nor yields a tree with a mistake
in it (`fails_iff_reports`).

`Reporting.Tells failed p` says this of a computation whose results count as failed in a sense of
their own, such as a list of results one of which is missing.  A sequence tells when its parts do
and what failed in the first part cannot be made good in the second (`Tells.bind`); the second part
may rely on the first one being clean.
-/
import MapStyle.Proofs.Typing.Branches

namespace MapStyle

namespace Reporting

variable {α β σ : Type}

/-- A computation fails exactly when it reports. -/
def Tells (failed : α → Prop) (p : Reporting α) : Prop :=
  failed (p.run []).1 ↔ (p.run []).2 ≠ []

/-! ## Sequences -/

theorem tells_pure {failed : α → Prop} {a : α} (h : ¬ failed a) :
    Tells failed (pure a : Reporting α) := iff_of_false h fun hne => hne rfl

theorem Tells.clean {failed : α → Prop} {p : Reporting α} (h : Tells failed p)
    (hfine : ¬ failed (p.run []).1) : Clean p (p.run []).1 :=
  Prod.ext rfl (not_not.1 fun hne => hfine (h.2 hne))

theorem Tells.bind {failed : α → Prop} {failed' : β → Prop} {p : Reporting α}
    {f : α → Reporting β} (hp : Tells failed p) (hadds : ∀ a, Adds (f a))
    (hfine : ∀ a, Clean p a → ¬ failed a → Tells failed' (f a))
    (hfailed : ∀ a, failed a → failed' ((f a).run []).1) : Tells failed' (p >>= f) := by
  rw [Tells, run_bind, hadds]
  by_cases h : failed (p.run []).1
  · refine iff_of_true (hfailed _ h) fun hnil => hp.1 h ?_
    exact (List.append_eq_nil_iff.1 hnil).1
  · have hclean := hp.clean h
    rw [show (p.run []).2 = [] from congrArg Prod.snd hclean]
    exact hfine _ hclean h

/-- What goes on from a tree that may be missing. -/
theorem Tells.bindOption {failed : β → Prop} {p : Reporting (Option α)}
    {f : Option α → Reporting β} (hp : Tells (· = none) p) (hadds : ∀ a, Adds (f a))
    (hsome : ∀ a, Tells failed (f (some a))) (hnone : failed ((f none).run []).1) :
    Tells failed (p >>= f) := by
  refine hp.bind hadds (fun a _ ha => ?_) fun a ha => ?_
  · obtain ⟨a, rfl⟩ := Option.ne_none_iff_exists'.1 ha
    exact hsome a
  · rw [ha]
    exact hnone

/-- What goes on from something that is known and something that may be missing. -/
theorem Tells.bindSecond {failed : β → Prop} {p : Reporting (σ × Option α)}
    {f : σ × Option α → Reporting β} (hp : Tells (fun r => r.2 = none) p)
    (hadds : ∀ r, Adds (f r)) (hsome : ∀ s a, Clean p (s, some a) → Tells failed (f (s, some a)))
    (hnone : ∀ s, failed ((f (s, none)).run []).1) : Tells failed (p >>= f) := by
  refine hp.bind hadds ?_ ?_
  · rintro ⟨s, a⟩ hclean ha
    obtain ⟨a, rfl⟩ := Option.ne_none_iff_exists'.1 ha
    exact hsome s a hclean
  · rintro ⟨s, _⟩ rfl
    exact hnone s

theorem Tells.map {failed : α → Prop} {failed' : β → Prop} {p : Reporting α} {f : α → β}
    (hp : Tells failed p) (h : ∀ a, failed' (f a) ↔ failed a) :
    Tells failed' (p >>= fun a => pure (f a)) :=
  hp.bind (fun _ => adds_pure _) (fun _ _ hfine => tells_pure fun h' => hfine ((h _).1 h'))
    fun _ hfailed => (h _).2 hfailed

/-! ## Reports -/

theorem tells_reportAt (ctx : Context) (below : Path) (c : Complaint) :
    Tells (· = none) (ctx.reportAt (α := α) below c) := iff_of_true rfl (List.cons_ne_nil _ _)

theorem tells_report (ctx : Context) (c : Complaint) :
    Tells (· = none) (ctx.report (α := α) c) := tells_reportAt ctx [] c

/-- A complaint beside something that is known. -/
theorem tells_beside (s : σ) (ctx : Context) (below : Path) (c : Complaint) :
    Tells (fun r => r.2 = none) (do pure (s, ← ctx.reportAt (α := α) below c)) :=
  iff_of_true rfl (List.cons_ne_nil _ _)

/-! ## Steps along a list -/

theorem allOf_eq_none {bs : List (Option α)} : allOf bs = none ↔ none ∈ bs := by
  induction bs with
  | nil => simp [allOf]
  | cons b bs ih => cases b <;> simp [allOf, ih]

section

variable {step : σ → α → Reporting (σ × Option β)} {as : List α}
  (hadds : ∀ a ∈ as, ∀ s, Adds (step s a))
  (hstep : ∀ a ∈ as, ∀ s, Tells (fun r => r.2 = none) (step s a))

include hadds hstep

theorem tells_along (s : σ) : Tells (fun r => none ∈ r.2) (along step s as) := by
  induction as generalizing s with
  | nil => exact tells_pure List.not_mem_nil
  | cons a as ih =>
      obtain ⟨_, hrestAdds⟩ := List.forall_mem_cons.1 hadds
      obtain ⟨hfirst, hrest⟩ := List.forall_mem_cons.1 hstep
      refine (hfirst s).bind (fun _ => (adds_along hrestAdds _).bind fun _ => adds_pure _) ?_ ?_
      · rintro ⟨mid, b⟩ _ hb
        refine (ih hrestAdds hrest mid).map fun r => ?_
        exact List.mem_cons.trans (or_iff_right (Ne.symm hb))
      · rintro ⟨mid, _⟩ rfl
        exact List.mem_cons_self

theorem tells_sweep (s : σ) : Tells (fun r => r.2 = none) (sweep step s as) :=
  (tells_along hadds hstep s).map fun _ => allOf_eq_none

end

end Reporting

open Reporting

namespace Typing

/-- Wherever a document is checked, it yields no tree exactly when the check reports. -/
def Verdict (j : Json) : Prop := ∀ ctx, Tells (· = none) (check j ctx)

/-! ## Parts of forms -/

theorem tells_checkOutput {j : Json} (h : Verdict j) (ctx : Context) (i : Nat)
    (shared : Option Ty) : Tells (fun r => r.2 = none) ((argOf j).checkOutput ctx i shared) := by
  refine (h _).bindOption (fun r => ?_) (fun e => ?_) rfl
  · cases r <;> exact adds_pure _
  · exact tells_pure (Option.some_ne_none _)

theorem tells_literalOf (v : Value) (ctx : Context) : Tells (· = none) (literalOf v ctx) := by
  rw [literalOf]
  split
  · exact tells_pure (Option.some_ne_none _)
  · exact tells_report _ _

theorem tells_scalar (j : Json) (ctx : Context) : Tells (· = none) (scalar j ctx) := by
  simp only [scalar]
  split
  · split
    · exact tells_literalOf _ _
    · exact tells_report _ _
  · exact tells_literalOf _ _

theorem tells_label (j : Json) (i : Nat) (ctx : Context) : Tells (· = none) (label j i ctx) := by
  unfold label
  split
  · exact tells_pure (Option.some_ne_none _)
  · dsimp only
    split
    · exact tells_reportAt _ _ _
    · split
      · exact tells_pure (Option.some_ne_none _)
      · exact tells_reportAt _ _ _
  · exact tells_reportAt _ _ _

theorem tells_nextLabel (ctx : Context) (branch i : Nat) (seen : LabelsSeen) (j : Json) :
    Tells (fun r => r.2 = none) (nextLabel ctx branch i seen j) := by
  refine (tells_label j i ctx).bindOption (fun r => ?_) (fun l => ?_) rfl
  · cases r with
    | none => exact adds_pure _
    | some l =>
        dsimp only
        split
        · exact (adds_reportAt _ _ _).bind fun _ => adds_pure _
        · split
          · exact (adds_reportAt _ _ _).bind fun _ => adds_pure _
          · exact adds_pure _
  · dsimp only
    split
    · exact tells_beside _ _ _ _
    · split
      · exact tells_beside _ _ _ _
      · exact tells_pure (Option.some_ne_none _)

theorem tells_nextBranch (ctx : Context) (seen : BranchesSeen) (labels : Json) {output : Json}
    (h : Verdict output) (k : Nat) :
    Tells (fun r => r.2 = none) (nextBranch ctx seen ((argOf labels, argOf output), k)) := by
  rw [nextBranch]
  dsimp only
  split
  · exact tells_beside _ _ _ _
  · refine (tells_sweep (fun j _ s => adds_nextLabel _ _ _ s j)
      (fun j _ s => tells_nextLabel _ _ _ s j) _).bindSecond (fun found => ?_)
      (fun known ls _ => ?_) fun known => rfl
    · refine (adds_checkOutput (adds_arg output) _ _ _).bind fun r => ?_
      split <;> exact adds_pure _
    · refine (tells_checkOutput h _ _ _).bindSecond (fun r => ?_) (fun shared e _ => ?_)
        fun shared => rfl
      · split <;> exact adds_pure _
      · exact tells_pure (Option.some_ne_none _)

theorem tells_interpolation (j : Json) (ctx : Context) :
    Tells (· = none) (interpolation j ctx) := by
  simp only [interpolation]
  split
  · rename_i name parameters
    simp only [interpolationOf]
    split
    · exact tells_pure (Option.some_ne_none _)
    · exact tells_pure (Option.some_ne_none _)
    · split
      · exact tells_pure (Option.some_ne_none _)
      · exact tells_reportAt _ _ _
    · generalize (parameters.filterMap Json.num?).filter (inRange 0 1) = points
      split
      · exact tells_pure (Option.some_ne_none _)
      · exact tells_reportAt _ _ _
    · exact tells_reportAt _ _ _
  · exact tells_reportAt _ _ _

theorem tells_nextStop (ctx : Context) (seen : StopsSeen) (label : Json) {output : Json}
    (h : Verdict output) (k : Nat) :
    Tells (fun r => r.2 = none) (nextStop ctx seen ((argOf label, argOf output), k)) := by
  unfold nextStop
  dsimp only
  split
  · exact tells_beside _ _ _ _
  · split
    · exact tells_beside _ _ _ _
    · split
      · exact tells_beside _ _ _ _
      · refine (tells_checkOutput h _ _ _).bindSecond (fun r => ?_) (fun shared e _ => ?_)
          fun shared => rfl
        · split <;> exact adds_pure _
        · exact tells_pure (Option.some_ne_none _)

theorem tells_bindIn (ctx : Context) (name : Json) {value : Json} (h : Verdict value) (k : Nat) :
    Tells (fun r => r.2 = none) (bindIn ctx () ((argOf name, argOf value), k)) := by
  have hbinding : Tells (· = none) (nextBinding ctx ((argOf name, argOf value), k)) := by
    unfold nextBinding
    dsimp only
    split
    · exact tells_reportAt _ _ _
    · exact (h _).map fun _ => Option.map_eq_none_iff
  exact hbinding.map fun _ => Iff.rfl

theorem tells_checkIn (context : Nat → Context) {j : Json} (h : Verdict j) (i : Nat) (s : Unit) :
    Tells (fun r => r.2 = none) (checkIn context s (argOf j, i)) :=
  (h _).map fun _ => Iff.rfl

theorem tells_of_mem {β σ : Type} {js : List Json} (ih : ∀ j ∈ js, Verdict j) {k : Nat}
    {step : σ → Arg × Nat → Reporting (σ × Option β)}
    (h : ∀ j, Verdict j → ∀ i s, Tells (fun r => r.2 = none) (step s (argOf j, i))) :
    ∀ a ∈ (js.map argOf).zipIdx k, ∀ s, Tells (fun r => r.2 = none) (step s a) := by
  intro a ha s
  obtain ⟨j, hj, i, rfl⟩ := exists_of_mem_args ha
  exact h j (ih j hj) i s

theorem tells_of_mem_pairs {β σ : Type} {pairs : List (Json × Json)}
    (ih : ∀ p ∈ pairs, Verdict p.2) {k : Nat}
    {step : σ → (Arg × Arg) × Nat → Reporting (σ × Option β)}
    (h : ∀ i j, Verdict j → ∀ k s, Tells (fun r => r.2 = none) (step s ((argOf i, argOf j), k))) :
    ∀ a ∈ (argPairs pairs).zipIdx k, ∀ s, Tells (fun r => r.2 = none) (step s a) := by
  intro a ha s
  obtain ⟨p, hp, k, rfl⟩ := exists_of_mem_argPairs ha
  exact h p.1 p.2 (ih p hp) k s

/-! ## Forms -/

/-- A form fails exactly when it reports, provided that the documents below it do. -/
def FormTells (form : Form) : Prop :=
  ∀ (js : List Json) (ctx : Context), (∀ j ∈ js, Verdict j) →
    Tells (· = none) (form (js.map argOf) ctx)

theorem literal_tells : FormTells literal := by
  intro js ctx _
  simp only [literal]
  split
  · exact tells_literalOf _ _
  · exact tells_report _ _

theorem coalesce_tells : FormTells coalesce := by
  intro js ctx ih
  exact (tells_sweep (fun a ha _ => adds_checkOutput
    (adds_argOf js _ (List.fst_mem_of_mem_zipIdx ha)) _ _ _)
    (tells_of_mem ih fun _ hj _ _ => tells_checkOutput hj _ _ _) _).map
      fun _ => Option.map_eq_none_iff

theorem assertion_tells (ty : Ty) : FormTells (assertion ty) := by
  intro js ctx ih
  rw [assertion]
  split
  · exact tells_report _ _
  · have hinputs : Tells (fun r => r.2 = none)
        (Reporting.sweep (checkIn fun i => ctx.child i (some .value)) ()
          ((js.map argOf).zipIdx 1)) :=
      tells_sweep (adds_checkIn (adds_argOf js) _ 1)
        (tells_of_mem ih fun _ hj => tells_checkIn _ hj) _
    refine hinputs.map fun _ => ?_
    exact Option.map_eq_none_iff

theorem tells_arrayOf {input : Json} (h : Verdict input) (item : Ty) (len : Option Nat) (i : Nat)
    (ctx : Context) : Tells (· = none) (arrayOf item len (argOf input) i ctx) :=
  (h _).map fun _ => Option.map_eq_none_iff

theorem arrayAssertion_tells : FormTells arrayAssertion := by
  intro js ctx ih
  match js with
  | [] => exact tells_report _ _
  | [input] => exact tells_arrayOf (ih input (by simp)) _ _ _ _
  | [item, input] =>
      simp only [List.map_cons, List.map_nil, arrayAssertion]
      split
      · exact tells_arrayOf (ih input (by simp)) _ _ _ _
      · exact tells_reportAt _ _ _
  | [item, len, input] =>
      simp only [List.map_cons, List.map_nil, arrayAssertion]
      split
      · exact tells_arrayOf (ih input (by simp)) _ _ _ _
      · exact tells_reportAt _ _ _
      · exact tells_reportAt _ _ _
  | _ :: _ :: _ :: _ :: _ => exact tells_report _ _

theorem var_tells : FormTells var := by
  intro js ctx _
  simp only [var]
  split
  · split
    · exact tells_reportAt _ _ _
    · split
      · exact tells_pure (Option.some_ne_none _)
      · exact tells_reportAt _ _ _
  · exact tells_report _ _

/-! ### Calls -/

theorem tells_withSignature {js : List Json} (ih : ∀ j ∈ js, Verdict j) (fn : Builtin)
    (signature : Signature) (ctx : Context) :
    Tells (· = none) (withSignature fn signature (js.map argOf) ctx) := by
  have hchecks : Tells (fun r => none ∈ r.2)
      (Reporting.along (checkIn fun i => ctx.child (i + 1) (some (signature.param i))) ()
        (js.map argOf).zipIdx) :=
    tells_along (adds_checkIn (adds_argOf js) _ 0)
      (tells_of_mem ih fun _ hj => tells_checkIn _ hj) _
  have harguments : Tells (fun bs => none ∈ bs)
      (arguments (js.map argOf) (fun i => some (signature.param i)) ctx) :=
    hchecks.map (f := fun r => r.2) fun _ => Iff.rfl
  exact harguments.map (f := fun bs => (Reporting.allOf bs).map _)
    fun _ => Option.map_eq_none_iff.trans allOf_eq_none

/-- The signatures are tried on lists of diagnostics of their own. -/
theorem tells_firstFitting (fn : Builtin) (args : List Arg) (ctx : Context)
    (signatures : List Signature) :
    Tells (fun _ => False) (firstFitting fn args ctx signatures) := by
  induction signatures with
  | nil => exact tells_pure id
  | cons signature rest ih =>
      rw [firstFitting]
      split
      · have hapart : Tells (fun _ => False) (apart (withSignature fn signature args ctx)) :=
          iff_of_false id fun hne => hne rfl
        refine hapart.bind (fun r => ?_) (fun r _ _ => ?_) fun _ => False.elim
        · split
          · exact adds_pure _
          · exact adds_firstFitting _ _ _ _
        · split
          · exact tells_pure id
          · exact ih
      · exact ih

/-- Where no signature fits there is always something to report, if not the mistakes of the
arguments then their types. -/
theorem tells_noneFitting (fn : Builtin) (args : List Arg) (ctx : Context) :
    Tells (· = none) (noneFitting fn args ctx) := by
  have hapart : Tells (fun _ => False) (apart (arguments args (fun _ => none) ctx)) :=
    iff_of_false id fun hne => hne rfl
  refine hapart.bind (fun r => ?_) (fun r _ _ => ?_) fun _ => False.elim
  · split
    · exact adds_report _ _
    · exact (adds_add _).bind fun _ => adds_pure _
  · split
    · exact tells_report _ _
    · rename_i _ hne _
      exact iff_of_true rfl hne

theorem call_tells (fn : Builtin) : FormTells (call fn) := by
  intro js ctx ih
  rw [call]
  split
  · split
    · exact tells_withSignature ih _ _ _
    · exact tells_report _ _
  · refine (tells_firstFitting fn _ _ _).bind (fun r => ?_) (fun r _ _ => ?_) fun _ => False.elim
    · cases r with
      | none => exact adds_noneFitting _ _ _
      | some e => exact adds_pure _
    · cases r with
      | none => exact tells_noneFitting _ _ _
      | some e => exact tells_pure (Option.some_ne_none _)

/-! ### Outputs that share a type -/

/-- Branches that may follow one another leave a type for the labels behind. -/
theorem LabelsSeen.ty_ne_none {k : Nat} {seen : LabelsSeen} {branches : List (List Label)}
    (h : seen.TakesBranches k branches) (hne : branches ≠ []) :
    (addBranches k seen branches).ty ≠ none := by
  intro hnone
  cases branches with
  | nil => exact hne rfl
  | cons ls branches =>
      obtain ⟨l, hl⟩ := List.exists_mem_of_ne_nil ls h.1
      -- Without a type, the labels would be of every type, also of one that no label is of.
      obtain ⟨_, hty⟩ := ty_of_addBranches (t := .null) h fun u hu => by rw [hnone] at hu; cases hu
      have hnull : l.ty = .null := hty ls List.mem_cons_self l hl
      cases l <;> cases hnull

theorem ty_of_branches {ctx : Context} {branches : List (Json × Json)} {seen : BranchesSeen}
    {checked : List (List Label × Expr)} (hne : branches ≠ [])
    (h : Steps (nextBranch ctx) ⟨⟨none, []⟩, ctx.expected⟩ (argPairs branches).zipIdx seen
      checked) : ∃ t, seen.labels.ty = some t := by
  obtain ⟨_, _, htakes, hseen, hcount⟩ := formed_of_branches (fun p _ => Elaborates.formed p.2) h
  refine Option.ne_none_iff_exists'.1 ?_
  rw [hseen]
  refine LabelsSeen.ty_ne_none htakes fun hnil => hne ?_
  rw [List.map_eq_nil_iff] at hnil
  rw [hnil] at hcount
  exact List.eq_nil_of_length_eq_zero hcount.symm

theorem select_tells : FormTells select := by
  intro js ctx ih
  simp only [select]
  split
  · exact tells_report _ _
  rename_i hlen
  cases js with
  | nil => exact tells_report _ _
  | cons input rest =>
      simp only [List.map_cons, inPairs_map]
      generalize hpairs : inPairs rest = pairs
      obtain ⟨branches, extra⟩ := pairs
      cases extra with
      | none => exact tells_report _ _
      | some last =>
          obtain ⟨ihinput, ihrest⟩ := List.forall_mem_cons.1 ih
          obtain ⟨hmem, hlast⟩ := mem_of_inPairs hpairs
          have hne : branches ≠ [] := pairs_ne_nil hpairs (by simp at hlen; omega)
          have hadds : ∀ a ∈ (argPairs branches).zipIdx, ∀ s, Adds (nextBranch ctx s a) :=
            fun a ha s => adds_nextBranch (adds_snd ha) _ _ _ _
          have htells : ∀ a ∈ (argPairs branches).zipIdx, ∀ s,
              Tells (fun r => r.2 = none) (nextBranch ctx s a) :=
            tells_of_mem_pairs (fun p hp => ihrest _ (hmem p hp).2)
              fun i j hj k s => tells_nextBranch ctx s i hj k
          refine (tells_sweep hadds htells _).bindSecond (fun found => ?_)
            (fun seen checked hclean => ?_) fun seen => ?_
          · refine (adds_check _ _).bind fun _ => (adds_check _ _).bind fun _ => ?_
            split <;> exact adds_pure _
          · obtain ⟨inputTy, hty⟩ := ty_of_branches hne ((clean_sweep hadds).1 hclean)
            refine (ihinput _).bindOption (fun d => ?_) (fun d => ?_) rfl
            · refine (adds_check _ _).bind fun _ => ?_
              split <;> exact adds_pure _
            · refine (ihrest _ (hlast _ rfl) _).bindOption (fun o => ?_) (fun o => ?_) rfl
              · split <;> exact adds_pure _
              · simp only [hty]
                exact tells_pure (Option.some_ne_none _)
          · simp only [run_bind]
            split
            · rename_i heq
              cases heq
            · rfl

theorem tells_curveOf (ctx : Context) (kind : Interpolation) (input : Expr) (ty : Ty)
    (stops : List (Float × Expr)) : Tells (· = none) (curveOf ctx kind input ty stops) := by
  rw [curveOf]
  split
  · exact tells_pure (Option.some_ne_none _)
  · exact tells_report _ _

theorem adds_curveParts (ctx : Context) (kind : Option Interpolation) (input : Option Expr)
    (found : StopsSeen × Option (List (Float × Expr))) :
    Adds (match kind, input, found.2 with
      | some kind, some input, some stops =>
        curveOf ctx kind input (found.1.shared.getD .null) stops
      | _, _, _ => pure none) := by
  split
  · exact adds_curveOf _ _ _ _ _
  · exact adds_pure _

theorem curve_tells : FormTells curve := by
  intro js ctx ih
  simp only [curve]
  split
  · exact tells_report _ _
  rcases js with _ | ⟨description, _ | ⟨input, rest⟩⟩
  · exact tells_report _ _
  · exact tells_report _ _
  · simp only [List.map_cons, inPairs_map]
    generalize hpairs : inPairs rest = pairs
    obtain ⟨stops, extra⟩ := pairs
    cases extra with
    | some last => exact tells_report _ _
    | none =>
        obtain ⟨_, ih⟩ := List.forall_mem_cons.1 ih
        obtain ⟨ihinput, ihrest⟩ := List.forall_mem_cons.1 ih
        obtain ⟨hmem, _⟩ := mem_of_inPairs hpairs
        have hadds : ∀ a ∈ (argPairs stops).zipIdx, ∀ s, Adds (nextStop ctx s a) :=
          fun a ha s => adds_nextStop (adds_snd ha) _ _ _ _
        have htells : ∀ a ∈ (argPairs stops).zipIdx, ∀ s,
            Tells (fun r => r.2 = none) (nextStop ctx s a) :=
          tells_of_mem_pairs (fun p hp => ihrest _ (hmem p hp).2)
            fun i j hj k s => tells_nextStop ctx s i hj k
        have hrest : ∀ (kind : Option Interpolation) (d : Option Expr), Adds _ := fun kind d =>
          (adds_sweep hadds ⟨ctx.expected, none⟩).bind (adds_curveParts ctx kind d)
        refine (tells_interpolation _ _).bindOption (fun kind => ?_) (fun kind => ?_) rfl
        · exact (adds_check _ _).bind fun d => hrest kind d
        · refine (ihinput _).bindOption (fun d => hrest _ d) (fun d => ?_) rfl
          refine (tells_sweep hadds htells _).bindSecond (adds_curveParts ctx _ _)
            (fun seen checked _ => ?_) fun seen => rfl
          exact tells_curveOf _ _ _ _ _

/-! ### Names -/

theorem letIn_tells : FormTells letIn := by
  intro js ctx ih
  rw [letIn, inPairs_map]
  split
  · exact tells_report _ _
  generalize hpairs : inPairs js = pairs
  obtain ⟨bindings, extra⟩ := pairs
  cases extra with
  | none => exact tells_report _ _
  | some last =>
      obtain ⟨hmem, hlast⟩ := mem_of_inPairs hpairs
      have hbindings : Tells (fun r => r.2 = none)
          (Reporting.sweep (bindIn ctx) () (argPairs bindings).zipIdx) :=
        tells_sweep
          (fun a ha _ => (adds_nextBinding (adds_snd ha) _ _ _).bind fun _ => adds_pure _)
          (tells_of_mem_pairs (fun p hp => ih _ (hmem p hp).2)
            fun i j hj k _ => tells_bindIn ctx i hj k) _
      refine hbindings.bindSecond (fun found => ?_) (fun _ bound _ => ?_) fun _ => rfl
      · dsimp only
        split
        · exact adds_pure _
        · exact (adds_check _ _).bind fun _ => adds_pure _
      · refine (ih _ (hlast _ rfl) _).map fun _ => ?_
        exact Option.map_eq_none_iff

theorem IsForm.tells {form : Form} (h : IsForm form) : FormTells form := by
  cases h with
  | literal => exact literal_tells
  | coalesce => exact coalesce_tells
  | select => exact select_tells
  | curve => exact curve_tells
  | letIn => exact letIn_tells
  | var => exact var_tells
  | assertion => exact assertion_tells _
  | arrayAssertion => exact arrayAssertion_tells
  | call fn => exact call_tells fn

/-! ## Documents -/

theorem tells_conform (e : Expr) (ctx : Context) : Tells (· = none) (conform e ctx) := by
  rw [conform]
  split
  · exact tells_pure (Option.some_ne_none _)
  · split
    · exact tells_pure (Option.some_ne_none _)
    · split
      · exact tells_pure (Option.some_ne_none _)
      · split
        · exact tells_pure (Option.some_ne_none _)
        · exact tells_report _ _

theorem tells_settled {p : Context → Reporting (Option Expr)} {ctx : Context}
    (h : Tells (· = none) (p ctx)) : Tells (· = none) (settled p ctx) := by
  refine h.bindOption (fun r => ?_) (fun e => tells_conform e ctx) rfl
  cases r with
  | none => exact adds_pure _
  | some e => exact adds_conform e ctx

theorem tells_applied {items : List Json} (ih : ∀ j ∈ items, Verdict j) (ctx : Context) :
    Tells (· = none) (applied (checks items) ctx) := by
  rw [checks_eq_map]
  cases items with
  | nil => exact tells_report _ _
  | cons head js =>
      simp only [List.map_cons, applied]
      split
      · exact tells_reportAt _ _ _
      · split
        · exact tells_reportAt _ _ _
        · rename_i form hform
          exact (isForm hform).tells js ctx fun j hj => ih j (List.mem_cons_of_mem _ hj)

/-- Every check fails exactly when it reports. -/
theorem verdict (j : Json) : Verdict j := by
  induction j using json_induction with
  | scalar j hj =>
      intro ctx
      cases j with
      | arr => cases hj
      | obj => cases hj
      | _ => exact tells_settled (tells_scalar _ ctx)
  | arr items ih => exact fun ctx => tells_settled (tells_applied ih ctx)
  | obj fields => exact fun ctx => tells_report ctx _

end Typing

/-- A check leaves the earlier diagnostics as they are and adds others just when it yields no tree;
so a document fails to compile just when there is something to report about it, and with exactly
that. -/
theorem fails_iff_reports (j : Json) :
    (∀ ctx before, ∃ found, ((Typing.check j ctx).run before).2 = before ++ found ∧
      (((Typing.check j ctx).run before).1 = none ↔ found ≠ [])) ∧
    ∀ expected interpolators ds, compile j expected interpolators = .error ds ↔
      ds ≠ [] ∧ ((Typing.check j (.root expected interpolators)).run []).2 = ds := by
  constructor
  · intro ctx before
    refine ⟨((Typing.check j ctx).run []).2, ?_, ?_⟩
    · rw [Typing.adds_check j ctx before]
    · rw [Typing.adds_check j ctx before]
      exact Typing.verdict j ctx
  · intro expected interpolators ds
    have hverdict := Typing.verdict j (.root expected interpolators)
    rw [Tells] at hverdict
    rw [compile]
    split
    · rename_i e hrun
      refine iff_of_false (fun h => by cases h) ?_
      rintro ⟨hne, rfl⟩
      exact hne (congrArg Prod.snd hrun)
    · rename_i r ds' hnot hrun
      rw [hrun] at hverdict ⊢
      constructor
      · rintro ⟨⟩
        refine ⟨fun hnil => ?_, rfl⟩
        cases r with
        | none => exact hverdict.1 rfl hnil
        | some e => exact hnot e rfl hnil
      · rintro ⟨_, rfl⟩
        rfl

end MapStyle
