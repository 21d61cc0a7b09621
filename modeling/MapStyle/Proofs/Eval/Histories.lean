/-
# `MapStyle.Proofs.Eval.Histories` — easings kept from one evaluation to the next

The evaluations of a compiled expression share a cache of easings.  Here it is shown that nothing of
it can be seen from outside: in a history of evaluations, each has the outcome that it would have
with an empty cache (`Compiled.outcomes_evaluateAll`).

What an evaluation does to the cache is to look up easings, one after the other, each of them that
of a curve of the tree (`Expr.looksUp_eval`).  A look-up adds at most one entry, behind the others,
and only if none has its key (`EasingCache.BuiltFor.easing`).  So at every point of a history the
cache holds built easings only, and no more of them than the curves have control points.
-/
import MapStyle.Proofs.Eval.Lexical

namespace MapStyle

/-! ## Look-ups -/

namespace EasingCache

variable {cache : EasingCache} {points : List ControlPoints}

/-- The cache after easings were looked up one after the other. -/
def after (cache : EasingCache) (asked : List ControlPoints) : EasingCache :=
  asked.foldl (fun cache p => (cache.easing p).2) cache

theorem after_append (cache : EasingCache) (asked more : List ControlPoints) :
    cache.after (asked ++ more) = (cache.after asked).after more := List.foldl_append

/-- A look-up adds an entry behind the others, or none. -/
theorem entries_prefix_easing (cache : EasingCache) (p : ControlPoints) :
    cache.entries <+: (cache.easing p).2.entries := by
  rw [easing]
  split
  · exact List.prefix_rfl
  · exact List.prefix_append _ _

theorem entries_prefix_after (cache : EasingCache) (asked : List ControlPoints) :
    cache.entries <+: (cache.after asked).entries := by
  induction asked generalizing cache with
  | nil => exact List.prefix_rfl
  | cons p asked ih => exact (cache.entries_prefix_easing p).trans (ih _)

/-- What a cache holds is built: every easing is that of some control points and stands under their
bits, and no bits have two easings. -/
structure BuiltFor (points : List ControlPoints) (cache : EasingCache) : Prop where
  built : ∀ bits easing, (bits, easing) ∈ cache.entries →
    ∃ p ∈ points, bits = p.bits ∧ easing = .ofPoints p
  distinct : (cache.entries.map Prod.fst).Nodup

theorem builtFor_empty (points : List ControlPoints) : empty.BuiltFor points :=
  ⟨fun _ _ h => (List.not_mem_nil h).elim, List.nodup_nil⟩

theorem not_mem_of_lookup {entries : List (List UInt64 × Easing)} {bits : List UInt64}
    (h : entries.lookup bits = none) : bits ∉ entries.map Prod.fst := by
  intro hmem
  obtain ⟨⟨_, easing⟩, hentry, rfl⟩ := List.mem_map.1 hmem
  exact absurd rfl (bne_iff_ne.1 (List.lookup_eq_none_iff.1 h _ hentry))

theorem BuiltFor.easing (h : cache.BuiltFor points) {p : ControlPoints} (hp : p ∈ points) :
    (cache.easing p).2.BuiltFor points := by
  rw [EasingCache.easing]
  split
  · exact h
  · rename_i hnone
    refine ⟨fun bits easing hmem => ?_, ?_⟩
    · rcases List.mem_append.1 hmem with hmem | hmem
      · exact h.built bits easing hmem
      · cases List.mem_singleton.1 hmem
        exact ⟨p, hp, rfl, rfl⟩
    · rw [List.map_append]
      refine List.nodup_append.2 ⟨h.distinct, List.nodup_singleton _, ?_⟩
      rintro bits hbits _ hlast rfl
      cases List.mem_singleton.1 hlast
      exact not_mem_of_lookup hnone hbits

theorem BuiltFor.after (h : cache.BuiltFor points) {asked : List ControlPoints}
    (hasked : ∀ p ∈ asked, p ∈ points) : (cache.after asked).BuiltFor points := by
  induction asked generalizing cache with
  | nil => exact h
  | cons p asked ih =>
      obtain ⟨hp, hrest⟩ := List.forall_mem_cons.1 hasked
      exact ih (h.easing hp) hrest

/-- There are no more easings than different control points. -/
theorem BuiltFor.size_le (h : cache.BuiltFor points) :
    cache.size ≤ (points.map ControlPoints.bits).dedup.length := by
  have hsubset : cache.entries.map Prod.fst ⊆ (points.map ControlPoints.bits).dedup := by
    intro bits hbits
    obtain ⟨⟨_, easing⟩, hentry, rfl⟩ := List.mem_map.1 hbits
    obtain ⟨p, hp, hbits, _⟩ := h.built _ _ hentry
    rw [List.mem_dedup]
    exact List.mem_map.2 ⟨p, hp, hbits.symm⟩
  have hle := (List.subperm_of_subset h.distinct hsubset).length_le
  rwa [List.length_map] at hle

end EasingCache

/-! ## Rules that ask for easings -/

namespace Rule

variable {α β : Type} {P : ControlPoints → Prop}

/-- A rule asks for easings of control points in `P` only. -/
def Eases (P : ControlPoints → Prop) : Rule α → Prop
  | done _ => True
  | ask _ next => ∀ r, Eases P (next r)
  | ease p next => P p ∧ ∀ easing, Eases P (next easing)

theorem eases_pure (a : α) : (pure a : Rule α).Eases P := trivial

theorem eases_fail (e : EvalError) : (fail e : Rule α).Eases P := trivial

theorem eases_lift (r : Outcome α) : (liftM r : Rule α).Eases P := trivial

theorem eases_operand (i : Nat) : (operand i).Eases P := fun _ => trivial

theorem eases_attempt (i : Nat) : (attempt i).Eases P := fun _ => trivial

theorem eases_easing {p : ControlPoints} (h : P p) : (easing p).Eases P := ⟨h, fun _ => trivial⟩

theorem Eases.bind {rule : Rule α} {f : α → Rule β} (h : rule.Eases P)
    (hf : ∀ a, (f a).Eases P) : (rule >>= f).Eases P := by
  induction rule with
  | done r =>
      cases r with
      | ok a => exact hf a
      | error e => trivial
  | ask i next ih => exact fun r => ih r (h r)
  | ease p next ih => exact ⟨h.1, fun easing => ih easing (h.2 easing)⟩

theorem eases_typed (t : Ty) (part : Value → Option α) (i : Nat) : (typed t part i).Eases P := by
  refine (eases_operand i).bind fun v => ?_
  split
  · exact eases_pure _
  · exact eases_fail _

end Rule

/-! ## Rules of nodes -/

open Rule

variable {P : ControlPoints → Prop}

namespace Builtin.Rules

theorem eases_firstConverted (convert : Value → Outcome Value) (count i : Nat) :
    (firstConverted convert count i).Eases P := by
  induction count generalizing i with
  | zero => exact eases_fail _
  | succ count ih =>
      cases count with
      | zero => exact (eases_operand i).bind fun v => eases_lift _
      | succ count =>
          refine (eases_operand i).bind fun v => ?_
          split
          · exact eases_pure _
          · exact ih (i + 1)

theorem eases_foldNumbers (f : Float → Float → Float) (count i : Nat) (total : Float) :
    (foldNumbers f count i total).Eases P := by
  induction count generalizing i total with
  | zero => exact eases_pure _
  | succ count ih => exact (eases_typed _ _ i).bind fun x => ih (i + 1) _

theorem eases_search (stop : Bool) (count i : Nat) : (search stop count i).Eases P := by
  induction count generalizing i with
  | zero => exact eases_pure _
  | succ count ih =>
      refine (eases_typed _ _ i).bind fun b => ?_
      split
      · exact eases_pure _
      · exact ih (i + 1)

theorem eases_concat (count i : Nat) (text : String) : (concat count i text).Eases P := by
  induction count generalizing i text with
  | zero => exact eases_pure _
  | succ count ih =>
      exact (eases_operand i).bind fun v => (eases_lift _).bind fun _ => ih (i + 1) _

theorem eases_binary (f : Float → Float → Float) : (binary f).Eases P :=
  (eases_typed _ _ 0).bind fun _ => (eases_typed _ _ 1).bind fun _ => eases_pure _

theorem eases_compare (accept : Ordering → Bool) : (compare accept).Eases P := by
  refine (eases_operand 0).bind fun a => (eases_operand 1).bind fun b => ?_
  split
  · exact eases_pure _
  · exact eases_fail _

theorem eases_mapText (f : String → String) : (mapText f).Eases P :=
  (eases_typed _ _ 0).bind fun _ => eases_pure _

theorem eases_mapValue (f : Value → Outcome Value) : (mapValue f).Eases P :=
  (eases_operand 0).bind fun v => eases_lift (f v)

theorem eases_rgba (count : Nat) : (rgba count).Eases P := by
  have hcolor : ∀ r g b a, (do
      let c ← Color.ofWire r g b a
      pure (.color c) : Rule Value).Eases P := fun _ _ _ _ =>
    (eases_lift _).bind fun _ => eases_pure _
  refine (eases_typed _ _ 0).bind fun r => (eases_typed _ _ 1).bind fun g =>
    (eases_typed _ _ 2).bind fun b => ?_
  split
  · refine Eases.bind ?_ fun a => hcolor r g b a
    exact (eases_typed _ _ 3).bind fun _ => eases_pure _
  · exact hcolor r g b none

theorem eases_get (scene : Scene) (count : Nat) : (get scene count).Eases P := by
  refine (eases_typed _ _ 0).bind fun key => ?_
  split
  · exact (eases_operand 1).bind fun v => eases_lift _
  · exact eases_lift _

theorem eases_has (scene : Scene) (count : Nat) : (has scene count).Eases P := by
  refine (eases_typed _ _ 0).bind fun key => ?_
  split
  · exact (eases_operand 1).bind fun v => (eases_lift _).bind fun _ => eases_pure _
  · exact eases_pure _

theorem eases_minus (count : Nat) : (minus count).Eases P := by
  refine (eases_typed _ _ 0).bind fun x => ?_
  split
  · exact (eases_typed _ _ 1).bind fun _ => eases_pure _
  · exact eases_pure _

theorem eases_length : length.Eases P := by
  refine (eases_operand 0).bind fun v => ?_
  split
  · exact eases_pure _
  · exact eases_pure _
  · exact eases_fail _

end Builtin.Rules

open Builtin.Rules in
/-- Built-in functions ask for no easings. -/
theorem Builtin.eases_rule (scene : Scene) (count : Nat) (fn : Builtin) :
    (fn.rule scene count).Eases P := by
  cases fn with
  | zoom => exact eases_pure _
  | properties => exact eases_pure _
  | get => exact eases_get scene count
  | has => exact eases_has scene count
  | item => exact (eases_typed _ _ 0).bind fun _ => (eases_typed _ _ 1).bind fun _ => eases_lift _
  | length => exact eases_length
  | toNumber => exact eases_firstConverted _ _ _
  | toColor => exact eases_firstConverted _ _ _
  | toRgba => exact (eases_typed _ _ 0).bind fun _ => eases_pure _
  | rgb => exact eases_rgba count
  | rgba => exact eases_rgba count
  | sum => exact eases_foldNumbers _ _ _ _
  | product => exact eases_foldNumbers _ _ _ _
  | minus => exact eases_minus count
  | divide => exact eases_binary _
  | remainder => exact eases_binary _
  | power => exact eases_binary _
  | equal => exact (eases_operand 0).bind fun _ => (eases_operand 1).bind fun _ => eases_pure _
  | unequal => exact (eases_operand 0).bind fun _ => (eases_operand 1).bind fun _ => eases_pure _
  | not => exact (eases_typed _ _ 0).bind fun _ => eases_pure _
  | all => exact eases_search _ _ _
  | any => exact eases_search _ _ _
  | concat => exact eases_concat _ _ _
  | typeOf => exact eases_mapValue _
  | toString => exact eases_mapValue _
  | toBoolean => exact eases_mapValue _
  | less => exact eases_compare _
  | lessEqual => exact eases_compare _
  | greater => exact eases_compare _
  | greaterEqual => exact eases_compare _
  | upcase => exact eases_mapText _
  | downcase => exact eases_mapText _

namespace Expr

theorem eases_coalesceRule (count i : Nat) : (coalesceRule count i).Eases P := by
  induction count generalizing i with
  | zero => exact eases_pure _
  | succ count ih =>
      refine (eases_attempt i).bind fun r => ?_
      cases r with
      | ok v =>
          dsimp only
          split
          · exact ih (i + 1)
          · exact eases_pure _
      | error e =>
          dsimp only
          split
          · exact eases_fail _
          · exact ih (i + 1)

theorem eases_selectRule (inputTy : Ty) (table : Dict Nat) :
    (selectRule inputTy table).Eases P := by
  refine (eases_operand 0).bind fun input => ?_
  refine (eases_lift _).bind fun v => (eases_lift _).bind fun text => ?_
  split
  · exact eases_operand _
  · exact eases_operand _

theorem eases_assertionRule (t : Ty) (count i : Nat) : (assertionRule t count i).Eases P := by
  induction count generalizing i with
  | zero => exact eases_pure _
  | succ count ih =>
      cases count with
      | zero => exact (eases_operand i).bind fun v => eases_lift _
      | succ count =>
          refine (eases_operand i).bind fun v => ?_
          split
          · exact eases_pure _
          · exact ih (i + 1)

/-- A curve asks for the easing of its own control points, if it has any. -/
theorem eases_progress {kind : Interpolation} (h : ∀ p, kind = .cubicBezier p → P p)
    (input lower upper : Float) : (Curve.progress kind input lower upper).Eases P := by
  cases kind with
  | cubicBezier p => exact (eases_easing (h p rfl)).bind fun _ => eases_pure _
  | _ => exact eases_pure _

theorem eases_label (labels : List Float) (i : Nat) : (Curve.label labels i).Eases P := by
  rw [Curve.label]
  split
  · exact eases_pure _
  · exact eases_fail _

theorem eases_curveRule {kind : Interpolation} (h : ∀ p, kind = .cubicBezier p → P p)
    (interpolators : Interpolators) (t : Ty) (labels : List Float) :
    (curveRule interpolators t kind labels).Eases P := by
  refine (eases_operand 0).bind fun input => (eases_lift _).bind fun v => ?_
  rw [Curve.value]
  split
  · exact eases_pure _
  · exact eases_operand _
  · split
    · exact eases_operand _
    · refine (eases_label labels _).bind fun lower => (eases_label labels _).bind fun upper => ?_
      refine (eases_progress h _ lower upper).bind fun x => ?_
      exact (eases_operand _).bind fun a => (eases_operand _).bind fun b => eases_lift _

end Expr

/-! ## Evaluations -/

/-- All that an evaluation does to the cache is to look up easings of control points in `P`. -/
def Evaluation.LooksUp {α : Type} (P : ControlPoints → Prop) (p : Evaluation α) : Prop :=
  ∀ st, ∃ asked : List ControlPoints, (∀ q ∈ asked, P q) ∧
    (p st).2.easings = st.easings.after asked

theorem Rule.looksUp_run {α : Type} {operands : List (Evaluation Value)} {rule : Rule α}
    (h : rule.Eases P) (hoperands : ∀ p ∈ operands, p.LooksUp P) :
    (rule.run operands).LooksUp P := by
  intro st
  induction rule generalizing st with
  | done r => exact ⟨[], fun _ hq => (List.not_mem_nil hq).elim, rfl⟩
  | ask i next ih =>
      rw [run]
      split
      · rename_i p hp
        obtain ⟨asked, hasked, hmid⟩ := hoperands p (List.mem_of_getElem? hp) st
        obtain ⟨more, hmore, hlast⟩ := ih _ (h _) (p st).2
        refine ⟨asked ++ more, List.forall_mem_append.2 ⟨hasked, hmore⟩, ?_⟩
        rw [hlast, hmid, EasingCache.after_append]
      · exact ⟨[], fun _ hq => (List.not_mem_nil hq).elim, rfl⟩
  | ease p next ih =>
      rw [run]
      obtain ⟨more, hmore, hlast⟩ := ih _ (h.2 _) ⟨st.scope, (st.easings.easing p).2⟩
      exact ⟨p :: more, List.forall_mem_cons.2 ⟨h.1, hmore⟩, hlast⟩

namespace Expr

/-- The control points of the curves of a tree. -/
def controlPoints (e : Expr) : List ControlPoints :=
  e.nodes.filterMap fun
    | .curve _ _ (.cubicBezier p) _ _ _ => some p
    | _ => none

theorem looksUp_evalInOrder {ps : List (Evaluation Value)} (h : ∀ p ∈ ps, p.LooksUp P) :
    Evaluation.LooksUp P (evalInOrder ps) := by
  intro st
  induction ps generalizing st with
  | nil => exact ⟨[], fun _ hq => (List.not_mem_nil hq).elim, rfl⟩
  | cons p ps ih =>
      obtain ⟨hp, hps⟩ := List.forall_mem_cons.1 h
      obtain ⟨asked, hasked, hmid⟩ := hp st
      rw [evalInOrder]
      split
      · rename_i heq
        rw [heq] at hmid
        exact ⟨asked, hasked, hmid⟩
      · rename_i mid heq
        rw [heq] at hmid
        obtain ⟨more, hmore, hlast⟩ := ih hps mid
        rw [show mid.easings = _ from hmid, ← EasingCache.after_append] at hlast
        refine ⟨asked ++ more, List.forall_mem_append.2 ⟨hasked, hmore⟩, ?_⟩
        split
        · rename_i heq'
          rw [heq'] at hlast
          exact hlast
        · rename_i heq'
          rw [heq'] at hlast
          exact hlast

theorem looksUp_evalEach {scene : Scene} {es : List Expr}
    (h : ∀ e ∈ es, (eval scene e).LooksUp P) : ∀ p ∈ evalEach scene es, p.LooksUp P := by
  rw [evalEach_eq_map]
  intro p hp
  obtain ⟨e, he, rfl⟩ := List.mem_map.1 hp
  exact h e he

theorem looksUp_eval (scene : Scene) (e : Expr)
    (h : ∀ n ∈ e.nodes, ∀ p t q input labels outputs,
      n = .curve p t (.cubicBezier q) input labels outputs → P q) :
    (eval scene e).LooksUp P := by
  induction e using children_induction with
  | node e ih =>
  have hself := h e (mem_nodes_self e)
  have hchild : ∀ d ∈ e.children, (eval scene d).LooksUp P := fun d hd =>
    ih d hd fun n hn => h n (mem_nodes_of_child hd hn)
  cases e with
  | literal p t v => exact fun st => ⟨[], fun _ hq => (List.not_mem_nil hq).elim, rfl⟩
  | coalesce p t args =>
      exact looksUp_run (eases_coalesceRule _ _) (looksUp_evalEach hchild)
  | select p t inputTy input table labels outputs otherwise =>
      obtain ⟨hinput, hrest⟩ := List.forall_mem_cons.1 hchild
      obtain ⟨houtputs, hotherwise⟩ := List.forall_mem_append.1 hrest
      refine looksUp_run (eases_selectRule _ _) (List.forall_mem_cons.2 ⟨hinput, ?_⟩)
      exact List.forall_mem_cons.2
        ⟨hotherwise _ (List.mem_singleton_self _), looksUp_evalEach houtputs⟩
  | curve p t kind input labels outputs =>
      obtain ⟨hinput, houtputs⟩ := List.forall_mem_cons.1 hchild
      refine looksUp_run (eases_curveRule ?_ _ _ _)
        (List.forall_mem_cons.2 ⟨hinput, looksUp_evalEach houtputs⟩)
      rintro q rfl
      exact hself p t q input labels outputs rfl
  | letIn p names values body =>
      obtain ⟨hvalues, hbody⟩ := List.forall_mem_append.1 hchild
      intro st
      obtain ⟨asked, hasked, hmid⟩ := looksUp_evalInOrder (looksUp_evalEach hvalues) st
      simp only [eval]
      split
      · rename_i heq
        rw [heq] at hmid
        exact ⟨asked, hasked, hmid⟩
      · rename_i vs mid heq
        rw [heq] at hmid
        obtain ⟨more, hmore, hlast⟩ :=
          List.forall_mem_singleton.1 hbody ⟨bindNames names vs mid.scope, mid.easings⟩
        refine ⟨asked ++ more, List.forall_mem_append.2 ⟨hasked, hmore⟩, ?_⟩
        rw [EasingCache.after_append, ← hmid]
        exact hlast
  | var p t name => exact fun st => ⟨[], fun _ hq => (List.not_mem_nil hq).elim, rfl⟩
  | assertion p t inputs =>
      exact looksUp_run (eases_assertionRule _ _ _) (looksUp_evalEach hchild)
  | call p t fn args => exact looksUp_run (fn.eases_rule _ _) (looksUp_evalEach hchild)

theorem looksUp_controlPoints (scene : Scene) (e : Expr) :
    (eval scene e).LooksUp (· ∈ e.controlPoints) := by
  refine looksUp_eval scene e fun n hn p t q input labels outputs heq => ?_
  subst heq
  exact List.mem_filterMap.2 ⟨_, hn, rfl⟩

end Expr

/-! ## Histories -/

namespace Compiled

/-- The outcomes of evaluations one after the other, each for a zoom level and the properties of a
feature, and the easings that are there in the end. -/
def evaluateAll (c : Compiled) :
    EasingCache → List (Float × Properties) → List (Outcome Value) × EasingCache
  | easings, [] => ([], easings)
  | easings, (zoom, properties) :: runs =>
    let (outcome, easings) := c.evaluate easings zoom properties
    let (outcomes, easings) := c.evaluateAll easings runs
    (outcome :: outcomes, easings)

theorem easings_evaluateAll_append (c : Compiled) (easings : EasingCache)
    (runs more : List (Float × Properties)) :
    (c.evaluateAll easings (runs ++ more)).2 =
      (c.evaluateAll (c.evaluateAll easings runs).2 more).2 := by
  induction runs generalizing easings with
  | nil => rfl
  | cons run runs ih => exact ih _

theorem easings_evaluate (c : Compiled) (easings : EasingCache) (zoom : Float)
    (properties : Properties) : ∃ asked : List ControlPoints,
      (∀ p ∈ asked, p ∈ c.root.controlPoints) ∧
      (c.evaluate easings zoom properties).2 = easings.after asked :=
  c.root.looksUp_controlPoints ⟨zoom, properties, c.interpolators⟩ ⟨[], easings⟩

/-- A history of evaluations looks up easings of curves of the tree. -/
theorem easings_evaluateAll (c : Compiled) (easings : EasingCache)
    (runs : List (Float × Properties)) : ∃ asked : List ControlPoints,
      (∀ p ∈ asked, p ∈ c.root.controlPoints) ∧
      (c.evaluateAll easings runs).2 = easings.after asked := by
  induction runs generalizing easings with
  | nil => exact ⟨[], fun _ hp => (List.not_mem_nil hp).elim, rfl⟩
  | cons run runs ih =>
      obtain ⟨asked, hasked, hmid⟩ := c.easings_evaluate easings run.1 run.2
      obtain ⟨more, hmore, hlast⟩ := ih (c.evaluate easings run.1 run.2).2
      refine ⟨asked ++ more, List.forall_mem_append.2 ⟨hasked, hmore⟩, ?_⟩
      rw [EasingCache.after_append, ← hmid]
      exact hlast

variable {j : Json} {expected : Option Ty} {interpolators : Interpolators} {c : Compiled}

/-- An evaluation cannot tell a cache of built easings from an empty one. -/
theorem evaluate_eq_of_sound (h : compile j expected interpolators = .ok c)
    {easings : EasingCache} (hsound : easings.Sound) (zoom : Float) (properties : Properties) :
    (c.evaluate easings zoom properties).1 = (c.evaluate .empty zoom properties).1 ∧
      (c.evaluate easings zoom properties).2.Sound := by
  obtain ⟨hvalue, _, hafter⟩ := answers_root h zoom properties ⟨[], easings⟩ rfl hsound
  have hempty := answers_root h zoom properties ⟨[], .empty⟩ rfl EasingCache.sound_empty
  exact ⟨hvalue.trans hempty.1.symm, hafter⟩

/-- In a history, every evaluation has the outcome that it has with an empty cache. -/
theorem outcomes_evaluateAll (h : compile j expected interpolators = .ok c)
    {easings : EasingCache} (hsound : easings.Sound) (runs : List (Float × Properties)) :
    (c.evaluateAll easings runs).1 = runs.map fun run => (c.evaluate .empty run.1 run.2).1 := by
  induction runs generalizing easings with
  | nil => rfl
  | cons run runs ih =>
      obtain ⟨houtcome, hafter⟩ := evaluate_eq_of_sound h hsound run.1 run.2
      exact List.cons_eq_cons.2 ⟨houtcome, ih hafter⟩

/-- The cache of easings is invisible.  In a history of evaluations of what has compiled, some of
which may fail, every evaluation has the outcome that it has with an empty cache.  The history looks
easings up one after the other, all of them of curves of the tree; at every point of it the cache
holds, under the bits of their control points, easings that were built from these, all that it held
before in its place, and no more than there are different control points in the tree. -/
theorem evaluateAll_empty (h : compile j expected interpolators = .ok c)
    (runs : List (Float × Properties)) :
    (c.evaluateAll .empty runs).1 = (runs.map fun run => (c.evaluate .empty run.1 run.2).1) ∧
      (∃ asked : List ControlPoints, (∀ p ∈ asked, p ∈ c.root.controlPoints) ∧
        (c.evaluateAll .empty runs).2 = EasingCache.empty.after asked ∧
        ∀ earlier later, asked = earlier ++ later →
          (EasingCache.empty.after earlier).BuiltFor c.root.controlPoints ∧
          (EasingCache.empty.after earlier).entries <+: (EasingCache.empty.after asked).entries ∧
          (EasingCache.empty.after earlier).size ≤
            (c.root.controlPoints.map ControlPoints.bits).dedup.length) ∧
      ∀ more, (c.evaluateAll .empty runs).2.entries <+:
        (c.evaluateAll .empty (runs ++ more)).2.entries := by
  refine ⟨outcomes_evaluateAll h EasingCache.sound_empty runs, ?_, fun more => ?_⟩
  · obtain ⟨asked, hasked, hlast⟩ := c.easings_evaluateAll .empty runs
    refine ⟨asked, hasked, hlast, ?_⟩
    -- at any point of the history, a start of `asked` has been asked for
    rintro earlier later rfl
    have hbuilt := (EasingCache.builtFor_empty c.root.controlPoints).after
      fun p hp => hasked p (List.mem_append_left later hp)
    refine ⟨hbuilt, ?_, hbuilt.size_le⟩
    rw [EasingCache.after_append]
    exact EasingCache.entries_prefix_after _ later
  · obtain ⟨asked, _, hlast⟩ := c.easings_evaluateAll (c.evaluateAll .empty runs).2 more
    rw [easings_evaluateAll_append, hlast]
    exact EasingCache.entries_prefix_after _ asked

/-- A curve with another one as its first output, both with the same control points. -/
def easedTwice : Json :=
  let bezier := Json.call "cubic-bezier" [.ofNat 0, .ofNat 0, .ofNat 1, .ofNat 1]
  let inner := Json.call "curve" [bezier, .call "zoom" [], .ofNat 0, .ofNat 1, .ofNat 10, .ofNat 2]
  .call "curve" [bezier, .call "zoom" [], .ofNat 0, inner, .ofNat 10, .ofNat 5]

/-- Both curves share the one easing that there ever is. -/
theorem evaluateAll_easedTwice : ∃ c, compile easedTwice none .standard = .ok c ∧
    c.root.controlPoints.length = 2 ∧
    ∀ runs, (c.evaluateAll .empty runs).1 =
        runs.map (fun run => (c.evaluate .empty run.1 run.2).1) ∧
      (c.evaluateAll .empty runs).2.size ≤ 1 := by
  obtain ⟨c, h, hcurves, hbits⟩ : ∃ c, compile easedTwice none .standard = .ok c ∧
      c.root.controlPoints.length = 2 ∧
      (c.root.controlPoints.map ControlPoints.bits).dedup.length = 1 :=
    ⟨_, rfl, rfl, by decide +kernel⟩
  refine ⟨c, h, hcurves, fun runs => ?_⟩
  obtain ⟨houtcomes, ⟨asked, _, hlast, hpoint⟩, _⟩ := evaluateAll_empty h runs
  have hsize := (hpoint asked [] (List.append_nil asked).symm).2.2
  rw [hbits, ← hlast] at hsize
  exact ⟨houtcomes, hsize⟩

end Compiled

end MapStyle
