/-
# `MapStyle.Proofs.Wire.Parts` — the parts of a tree, checked again

A writable tree that is formed in a context checks again, from its wire form, in every context with
the same scope and expected type, and what comes back is the rewired tree (`Rechecks.again`).

Calls of functions with several signatures make this more than a walk down the tree.  The arguments
that were checked against a later signature must still not check against an earlier one, although
what is checked is their wire form and not the document that they came from.  `Rechecks.refits` is
what is needed: only the wire form of a tree that refits a type checks against that type.  Both
facts are proved together, since the second one, for a body with names, rests on the first for the
values of the names.

This module says so of the lists of trees that nodes are made of, and of literals.
-/
import MapStyle.Proofs.Decimal.Product
import MapStyle.Proofs.Wire.Syntax

namespace MapStyle

open Reporting Typing

/-- What is proved of a tree and its wire form, by induction on trees. -/
structure Rechecks (interpolators : Interpolators) (e : Expr) : Prop where
  /-- The wire form of a writable tree checks where the tree is formed, to the rewired tree. -/
  again : ∀ ctx : Context, ctx.interpolators = interpolators →
    e.Formed interpolators ctx.scope ctx.expected → e.isWritable = true →
    ∃ d, Elaborates ctx e.toJson d ∧ d.unplaced = e.rewired
  /-- If the wire form of a text checks where texts are refused, the tree refits. -/
  refits : ∀ (ctx : Context) (t : Ty) (d : Expr), ctx.interpolators = interpolators →
    t.refusesText = true → ctx.expected = some t →
    e.Formed interpolators ctx.scope (some .string) → Elaborates ctx e.toJson d →
    e.Refits interpolators t

variable {interpolators : Interpolators} {ctx : Context}

/-! ## Types of what comes back -/

theorem ty_of_unplaced {d e : Expr} (h : d.unplaced = e.rewired) : d.ty = e.ty := by
  rw [← Expr.ty_unplaced d, h, Expr.ty_rewired]

theorem types_of_unplaced {ds es : List Expr} (h : ds.map Expr.unplaced = es.map Expr.rewired) :
    ds.map Expr.ty = es.map Expr.ty := by
  rw [← Expr.map_view ds fun d _ => Expr.ty_unplaced d, h,
    Expr.map_view es fun e _ => Expr.ty_rewired e]

theorem learn_congr {shared : Option Ty} {d e : Expr} (h : d.ty = e.ty) :
    learn shared d = learn shared e := by
  cases shared with
  | none => rw [learn, learn, h]
  | some t => rfl

/-- The type of what comes back is known wherever the wire form checks. -/
theorem Rechecks.ty_eq {e d : Expr} (he : Rechecks interpolators e) (ctx : Context)
    (hctx : ctx.interpolators = interpolators)
    (hformed : e.Formed interpolators ctx.scope ctx.expected) (hd : Elaborates ctx e.toJson d) :
    d.ty = e.ty := by
  have hwritable := isWritable_of_reads e ⟨_, _, hformed⟩ ⟨_, _, hd⟩
  obtain ⟨d', hd', hunplaced⟩ := he.again ctx hctx hformed hwritable
  rw [hd.unique hd']
  exact ty_of_unplaced hunplaced

theorem types_of_each {es ds : List Expr} (ih : ∀ e ∈ es, Rechecks interpolators e)
    (hctx : ctx.interpolators = interpolators) {param : Nat → Option Ty} {i : Nat}
    (hformed : Expr.FormedArgs interpolators es ctx.scope param i)
    (h : Each ctx param i (Expr.toItems es) ds) : ds.map Expr.ty = es.map Expr.ty := by
  induction es generalizing i ds with
  | nil =>
      cases h
      rfl
  | cons e es hrest =>
      obtain ⟨ihe, ihes⟩ := List.forall_mem_cons.1 ih
      rcases h with _ | ⟨he, hes⟩
      have hhead := ihe.ty_eq (ctx.child (i + 1) (param i)) hctx hformed.1 he
      rw [List.map_cons, List.map_cons, hhead, hrest ihes hformed.2 hes]

theorem types_of_bindings {names : List String} {values : List Expr}
    (ih : ∀ e ∈ values, Rechecks interpolators e) (hctx : ctx.interpolators = interpolators)
    (hlen : names.length = values.length) {i k : Nat} {bound : List (String × Expr)}
    (hformed : Expr.FormedArgs interpolators values ctx.scope (fun _ => none) i)
    (h : Steps (bindIn ctx) ()
      ((argPairs ((names.map Json.str).zip (Expr.toItems values))).zipIdx k) () bound) :
    bound.map (·.1) = names ∧ (bound.map (·.2)).map Expr.ty = values.map Expr.ty := by
  induction values generalizing names i k bound with
  | nil =>
      cases List.eq_nil_of_length_eq_zero hlen
      cases h
      exact ⟨rfl, rfl⟩
  | cons e values hrest =>
      obtain ⟨ihe, ihvalues⟩ := List.forall_mem_cons.1 ih
      cases names with
      | nil => cases hlen
      | cons n names =>
          rcases h with _ | ⟨hstep, hsteps⟩
          rename_i b _
          obtain ⟨m, d⟩ := b
          obtain ⟨hn, _, hd⟩ := clean_bindIn.1 hstep
          cases hn
          obtain ⟨hnames, htypes⟩ := hrest ihvalues (Nat.succ.inj hlen) hformed.2 hsteps
          have hhead := ihe.ty_eq (ctx.child (2 * k + 2) none) hctx hformed.1 hd
          refine ⟨congrArg (n :: ·) hnames, ?_⟩
          rw [List.map_cons, List.map_cons, List.map_cons, hhead, htypes]

/-! ## Lists of trees, checked again -/

theorem each_again {es : List Expr} (ih : ∀ e ∈ es, Rechecks interpolators e)
    (hctx : ctx.interpolators = interpolators) {param : Nat → Option Ty} {i : Nat}
    (hformed : Expr.FormedArgs interpolators es ctx.scope param i)
    (hwritable : Expr.areWritable es = true) :
    ∃ ds, Each ctx param i (Expr.toItems es) ds ∧ ds.map Expr.unplaced = es.map Expr.rewired := by
  induction es generalizing i with
  | nil => exact ⟨[], .nil i, rfl⟩
  | cons e es hrest =>
      obtain ⟨ihe, ihes⟩ := List.forall_mem_cons.1 ih
      obtain ⟨hwritable, hwritables⟩ := Bool.and_eq_true_iff.1 hwritable
      obtain ⟨d, hd, hunplaced⟩ := ihe.again (ctx.child (i + 1) (param i)) hctx hformed.1 hwritable
      obtain ⟨ds, hds, hall⟩ := hrest ihes hformed.2 hwritables
      exact ⟨d :: ds, .cons hd hds, by rw [List.map_cons, List.map_cons, hunplaced, hall]⟩

theorem outputs_again {es : List Expr} (ih : ∀ e ∈ es, Rechecks interpolators e)
    (hctx : ctx.interpolators = interpolators) {shared : Option Ty} {k : Nat}
    (hformed : Expr.FormedOutputs interpolators es ctx.scope shared)
    (hwritable : Expr.areWritable es = true) :
    ∃ ds, Steps (fun shared (arg, i) => Arg.checkOutput arg ctx i shared) shared
        (((Expr.toItems es).map argOf).zipIdx k) (learnAll shared es) ds ∧
      ds.map Expr.unplaced = es.map Expr.rewired := by
  induction es generalizing shared k with
  | nil => exact ⟨[], .nil shared, rfl⟩
  | cons e es hrest =>
      obtain ⟨ihe, ihes⟩ := List.forall_mem_cons.1 ih
      obtain ⟨hwritable, hwritables⟩ := Bool.and_eq_true_iff.1 hwritable
      obtain ⟨d, hd, hunplaced⟩ := ihe.again (ctx.child k shared) hctx hformed.1 hwritable
      obtain ⟨ds, hds, hall⟩ := hrest ihes hformed.2 hwritables
      have hlearn : learn shared e = learn shared d := learn_congr (ty_of_unplaced hunplaced).symm
      exact ⟨d :: ds, .cons (clean_checkOutput.2 ⟨hd, hlearn⟩) hds,
        by rw [List.map_cons, List.map_cons, hunplaced, hall]⟩

theorem map_labelOf?_toJson {ls : List Label} (h : ∀ l ∈ ls, l.WellFormed) :
    (ls.map Label.toJson).map labelOf? = (ls.map Label.unsigned).map some := by
  rw [List.map_map, List.map_map]
  exact List.map_congr_left fun l hl => labelOf?_toJson (h l hl)

theorem branches_again {labels : List (List Label)} {outputs : List Expr}
    (ih : ∀ e ∈ outputs, Rechecks interpolators e) (hctx : ctx.interpolators = interpolators)
    (hlen : labels.length = outputs.length) {known : LabelsSeen} {shared : Option Ty} {k : Nat}
    (hformed : Expr.FormedOutputs interpolators outputs ctx.scope shared)
    (hlabels : known.TakesBranches k labels) (hwritable : Expr.areWritable outputs = true) :
    ∃ checked, Steps (nextBranch ctx) ⟨known, shared⟩
        ((argPairs ((labels.map Expr.labelsJson).zip (Expr.toItems outputs))).zipIdx k)
        ⟨known.addBranches k labels, learnAll shared outputs⟩ checked ∧
      checked.map (·.1) = labels.map (·.map Label.unsigned) ∧
      (checked.map (·.2)).map Expr.unplaced = outputs.map Expr.rewired := by
  induction outputs generalizing labels known shared k with
  | nil =>
      cases List.eq_nil_of_length_eq_zero hlen
      exact ⟨[], .nil _, rfl, rfl⟩
  | cons e outputs hrest =>
      cases labels with
      | nil => cases hlen
      | cons ls labels =>
          obtain ⟨ihe, ihes⟩ := List.forall_mem_cons.1 ih
          obtain ⟨hwritable, hwritables⟩ := Bool.and_eq_true_iff.1 hwritable
          obtain ⟨hne, hls, htakes, hlabels⟩ := hlabels
          obtain ⟨d, hd, hunplaced⟩ :=
            ihe.again (ctx.child (2 * k + 3) shared) hctx hformed.1 hwritable
          obtain ⟨checked, hsteps, hmap, hall⟩ :=
            hrest ihes (Nat.succ.inj hlen) hformed.2 hlabels hwritables
          have hlearn : learn shared e = learn shared d :=
            learn_congr (ty_of_unplaced hunplaced).symm
          refine ⟨(ls.map Label.unsigned, d) :: checked,
            .cons (clean_nextBranch.2 ⟨?_, ?_, ?_, hd, ?_⟩) hsteps, ?_, ?_⟩
          · simpa [labelItems, Expr.labelsJson] using hne
          · exact map_labelOf?_toJson hls
          · exact LabelsSeen.takesAll_unsigned htakes
          · rw [LabelsSeen.addAll_unsigned, hlearn]
          · rw [List.map_cons, List.map_cons, hmap]
          · rw [List.map_cons, List.map_cons, List.map_cons, hunplaced, hall]

theorem stops_again {labels : List Float} {outputs : List Expr}
    (ih : ∀ e ∈ outputs, Rechecks interpolators e) (hctx : ctx.interpolators = interpolators)
    (hlen : labels.length = outputs.length) {shared : Option Ty} {before : Option Float} {k : Nat}
    (hformed : Expr.FormedOutputs interpolators outputs ctx.scope shared)
    (hlabels : StopsFollow before labels) (hwritable : Expr.areWritable outputs = true) :
    ∃ last checked, Steps (nextStop ctx) ⟨shared, before.map unsigned⟩
        ((argPairs ((labels.map Json.ofFloat).zip (Expr.toItems outputs))).zipIdx k)
        ⟨learnAll shared outputs, last⟩ checked ∧
      checked.map (·.1) = labels.map unsigned ∧
      (checked.map (·.2)).map Expr.unplaced = outputs.map Expr.rewired := by
  induction outputs generalizing labels shared before k with
  | nil =>
      cases List.eq_nil_of_length_eq_zero hlen
      exact ⟨_, [], .nil _, rfl, rfl⟩
  | cons e outputs hrest =>
      cases labels with
      | nil => cases hlen
      | cons x labels =>
          obtain ⟨ihe, ihes⟩ := List.forall_mem_cons.1 ih
          obtain ⟨hwritable, hwritables⟩ := Bool.and_eq_true_iff.1 hwritable
          obtain ⟨hfinite, hfollows, hlabels⟩ := hlabels
          obtain ⟨d, hd, hunplaced⟩ :=
            ihe.again (ctx.child (2 * k + 4) shared) hctx hformed.1 hwritable
          obtain ⟨last, checked, hsteps, hmap, hall⟩ := hrest (k := k + 1) ihes (Nat.succ.inj hlen)
            hformed.2 hlabels hwritables
          have hlearn : learn shared e = learn shared d :=
            learn_congr (ty_of_unplaced hunplaced).symm
          refine ⟨last, (unsigned x, d) :: checked, .cons (clean_nextStop.2 ⟨num?_ofFloat hfinite,
            stopFollows_unsigned hfollows, hd, ?_⟩) hsteps, ?_, ?_⟩
          · rw [hlearn]
            rfl
          · rw [List.map_cons, List.map_cons, hmap]
          · rw [List.map_cons, List.map_cons, List.map_cons, hunplaced, hall]

theorem bindings_again {names : List String} {values : List Expr}
    (ih : ∀ e ∈ values, Rechecks interpolators e) (hctx : ctx.interpolators = interpolators)
    (hlen : names.length = values.length) (hnames : ∀ n ∈ names, isIdentifier n = true) {i k : Nat}
    (hformed : Expr.FormedArgs interpolators values ctx.scope (fun _ => none) i)
    (hwritable : Expr.areWritable values = true) :
    ∃ bound, Steps (bindIn ctx) ()
        ((argPairs ((names.map Json.str).zip (Expr.toItems values))).zipIdx k) () bound ∧
      bound.map (·.1) = names ∧ (bound.map (·.2)).map Expr.unplaced = values.map Expr.rewired := by
  induction values generalizing names i k with
  | nil =>
      cases List.eq_nil_of_length_eq_zero hlen
      exact ⟨[], .nil (), rfl, rfl⟩
  | cons e values hrest =>
      cases names with
      | nil => cases hlen
      | cons n names =>
          obtain ⟨ihe, ihvalues⟩ := List.forall_mem_cons.1 ih
          obtain ⟨hn, hnames⟩ := List.forall_mem_cons.1 hnames
          obtain ⟨hwritable, hwritables⟩ := Bool.and_eq_true_iff.1 hwritable
          obtain ⟨d, hd, hunplaced⟩ :=
            ihe.again (ctx.child (2 * k + 2) none) hctx hformed.1 hwritable
          obtain ⟨bound, hsteps, hmap, hall⟩ := hrest (k := k + 1) ihvalues (Nat.succ.inj hlen)
            hnames hformed.2 hwritables
          refine ⟨(n, d) :: bound, .cons (clean_bindIn.2 ⟨rfl, hn, hd⟩) hsteps, ?_, ?_⟩
          · rw [List.map_cons, hmap]
          · rw [List.map_cons, List.map_cons, List.map_cons, hunplaced, hall]

/-! ## Where texts are refused -/

/-- A tree whose type is `String` is not brought in line with a type that refuses texts. -/
theorem not_conforms_of_string {t : Ty} (ht : t.refusesText = true) {d e : Expr}
    (hd : d.ty = .string) : ¬ Conforms (some t) d e := by
  simp only [Ty.refusesText, Bool.and_eq_true, bne_iff_ne, Bool.not_eq_true'] at ht
  obtain ⟨⟨hcolor, haccepts⟩, hstring⟩ := ht
  intro h
  cases h with
  | kept h =>
      rw [hd, admits_some, haccepts] at h
      rcases h with h | h <;> cases h
  | colored h => exact hcolor (Option.some.inj h)
  | asserted h _ _ _ h' =>
      cases h
      rw [hd, hstring] at h'
      cases h'

theorem eq_of_admits_string {t : Ty} (h : Admits (some .string) t) : t = .null ∨ t = .string := by
  rcases admits_some.1 h with h | h
  · exact .inl h
  · cases t with
    | string => exact .inr rfl
    | _ => cases h

/-- A type that is right for a text, of a tree that is brought in line with a type that refuses
texts, can only be `Null`. -/
theorem eq_null_of_conforms {t wanted : Ty} (hwanted : wanted.refusesText = true)
    (hty : Admits (some .string) t) {d e : Expr} (h : Conforms (some wanted) d e)
    (hd : d.ty = t) : t = .null := by
  rcases eq_of_admits_string hty with hnull | hstring
  · exact hnull
  · exact absurd h (not_conforms_of_string hwanted (hd.trans hstring))

theorem refitsAll_iff {t : Ty} {es : List Expr} :
    Expr.RefitsAll interpolators t es ↔ ∀ e ∈ es, e.Refits interpolators t := by
  induction es with
  | nil => simp [Expr.RefitsAll]
  | cons e es ih => rw [Expr.RefitsAll, ih, List.forall_mem_cons]

/-- A document checks below a context where a type is expected. -/
def ReadsAs (ctx : Context) (t : Ty) (j : Json) : Prop :=
  ∃ i d, Elaborates (ctx.child i (some t)) j d

theorem readsAs_of_outputs {js : List Json} {t : Ty} {k : Nat} {last : Option Ty} {es : List Expr}
    (h : Steps (fun shared (arg, i) => Arg.checkOutput arg ctx i shared) (some t)
      ((js.map argOf).zipIdx k) last es) : ∀ j ∈ js, ReadsAs ctx t j := by
  induction js generalizing k es with
  | nil => simp
  | cons j js ih =>
      rcases h with _ | ⟨hstep, hsteps⟩
      obtain ⟨hj, rfl⟩ := clean_checkOutput.1 hstep
      exact List.forall_mem_cons.2 ⟨⟨_, _, hj⟩, ih hsteps⟩

theorem readsAs_of_branches {pairs : List (Json × Json)} {t : Ty} {k : Nat} {known : LabelsSeen}
    {last : BranchesSeen} {checked : List (List Label × Expr)}
    (h : Steps (nextBranch ctx) ⟨known, some t⟩ ((argPairs pairs).zipIdx k) last checked) :
    last.shared = some t ∧ ∀ p ∈ pairs, ReadsAs ctx t p.2 := by
  induction pairs generalizing k known checked with
  | nil =>
      cases h
      simp
  | cons p pairs ih =>
      rcases h with _ | ⟨hstep, hsteps⟩
      rename_i b _
      obtain ⟨ls, e⟩ := b
      obtain ⟨_, _, _, hp, rfl⟩ := clean_nextBranch.1 hstep
      obtain ⟨hshared, hpairs⟩ := ih hsteps
      exact ⟨hshared, List.forall_mem_cons.2 ⟨⟨_, _, hp⟩, hpairs⟩⟩

theorem readsAs_of_stops {pairs : List (Json × Json)} {t : Ty} {k : Nat} {before : Option Float}
    {last : StopsSeen} {checked : List (Float × Expr)}
    (h : Steps (nextStop ctx) ⟨some t, before⟩ ((argPairs pairs).zipIdx k) last checked) :
    last.shared = some t ∧ ∀ p ∈ pairs, ReadsAs ctx t p.2 := by
  induction pairs generalizing k before checked with
  | nil =>
      cases h
      simp
  | cons p pairs ih =>
      rcases h with _ | ⟨hstep, hsteps⟩
      rename_i b _
      obtain ⟨x, e⟩ := b
      obtain ⟨_, _, hp, rfl⟩ := clean_nextStop.1 hstep
      obtain ⟨hshared, hpairs⟩ := ih hsteps
      exact ⟨hshared, List.forall_mem_cons.2 ⟨⟨_, _, hp⟩, hpairs⟩⟩

theorem formed_of_outputs {t : Ty} {es : List Expr} {scope : List (String × Ty)}
    (h : Expr.FormedOutputs interpolators es scope (some t)) :
    ∀ e ∈ es, e.Formed interpolators scope (some t) := by
  induction es with
  | nil => simp
  | cons e es ih => exact List.forall_mem_cons.2 ⟨h.1, ih h.2⟩

/-- Outputs that check where texts are refused refit. -/
theorem refitsAll_of_reads {t : Ty} (ht : t.refusesText = true) {es : List Expr}
    (ih : ∀ e ∈ es, Rechecks interpolators e) (hctx : ctx.interpolators = interpolators)
    (hformed : Expr.FormedOutputs interpolators es ctx.scope (some .string))
    (hreads : ∀ j ∈ Expr.toItems es, ReadsAs ctx t j) : Expr.RefitsAll interpolators t es := by
  rw [refitsAll_iff]
  intro e he
  obtain ⟨i, d, hd⟩ := hreads e.toJson (by
    rw [Expr.toItems_eq_map]
    exact List.mem_map_of_mem he)
  exact (ih e he).refits (ctx.child i (some t)) t d hctx ht rfl (formed_of_outputs hformed e he) hd

/-- Arguments of a later signature whose wire forms check against an earlier one refit it. -/
theorem refitsFrom_of_each {s signature : Signature} {es ds : List Expr} {i : Nat}
    (ih : ∀ e ∈ es, Rechecks interpolators e) (hctx : ctx.interpolators = interpolators)
    (hparam : ∀ k, i ≤ k → k < i + es.length →
      signature.param k = .string ∧ (s.param k).refusesText = true)
    (hformed : Expr.FormedArgs interpolators es ctx.scope (fun i => some (signature.param i)) i)
    (h : Each ctx (fun i => some (s.param i)) i (Expr.toItems es) ds) :
    s.RefitsFrom interpolators i es := by
  induction es generalizing i ds with
  | nil => trivial
  | cons e es hrest =>
      obtain ⟨ihe, ihes⟩ := List.forall_mem_cons.1 ih
      rcases h with _ | ⟨he, hes⟩
      obtain ⟨hstring, hrefuses⟩ := hparam i (Nat.le_refl i) (by simp)
      have hhead : e.Formed interpolators ctx.scope (some (signature.param i)) := hformed.1
      rw [hstring] at hhead
      exact ⟨ihe.refits (ctx.child (i + 1) (some (s.param i))) _ _ hctx hrefuses rfl hhead he,
        hrest ihes (fun k hk hlt => hparam k (by omega) (by simp; omega)) hformed.2 hes⟩

/-! ## Literals, checked again -/

/-- A scalar checks to its value, where that is of a right type. -/
theorem elaborates_data {j : Json} (hj : IsScalar j)
    (hty : Admits ctx.expected (literalTy ctx.expected (Value.ofJson j))) :
    Elaborates ctx j
      (.literal ctx.path (literalTy ctx.expected (Value.ofJson j)) (Value.ofJson j)) := by
  refine (elaborates_scalar hj).2 ⟨_, clean_scalar.2 (.inr ⟨?_, ?_⟩), .kept hty⟩
  · rintro s rfl hexp
    rw [hexp] at hty
    rcases admits_some.1 hty with h | h <;> cases h
  · exact clean_literalOf.2 ⟨Value.isValid_ofJson j, rfl⟩

theorem elaborates_literal {j : Json}
    (hty : Admits ctx.expected (literalTy ctx.expected (Value.ofJson j))) :
    Elaborates ctx (.call "literal" [j])
      (.literal ctx.path (literalTy ctx.expected (Value.ofJson j)) (Value.ofJson j)) :=
  (elaborates_named rfl).2 ⟨_, clean_literal.2 ⟨j, rfl, clean_literalOf.2
    ⟨Value.isValid_ofJson j, rfl⟩⟩, .kept hty⟩

/-- The wire form of data checks to the data without the signs of zeros. -/
theorem elaborates_literalJson (j : Json)
    (hty : Admits ctx.expected (literalTy ctx.expected (Value.ofJson j))) :
    Elaborates ctx (Expr.literalJson (Value.ofJson j))
      (.literal ctx.path (literalTy ctx.expected (Value.ofJson j)) (Value.ofJson j).unsigned) := by
  have hsame : literalTy ctx.expected (Value.ofJson (Value.ofJson j).toJson) =
      literalTy ctx.expected (Value.ofJson j) := by
    rw [Value.ofJson_toJson]
    exact literalTy_congr (Value.typeOf_unsigned _)
  rw [← hsame, ← Value.ofJson_toJson]
  rw [← hsame] at hty
  cases j with
  | null => exact elaborates_data trivial hty
  | bool b => exact elaborates_data trivial hty
  | str s => exact elaborates_data trivial hty
  | arr items => exact elaborates_literal hty
  | obj fields => exact elaborates_literal hty
  | num n =>
      refine elaborates_data ?_ hty
      obtain ⟨m, hm, _⟩ := toFloat_ofFloat? n.isFinite_toFloat
      show IsScalar (.ofFloat n.toFloat)
      rw [Json.ofFloat, hm]
      trivial

theorem elaborates_number {x : Float} (hx : x.isFinite = true)
    (hty : Admits ctx.expected .number) :
    Elaborates ctx (.ofFloat x) (.literal ctx.path .number (.number (unsigned x))) := by
  obtain ⟨n, hn, hnx⟩ := toFloat_ofFloat? hx
  have h : Elaborates ctx (.num n) (.literal ctx.path .number (.number n.toFloat)) :=
    elaborates_data trivial hty
  rw [Json.ofFloat, hn, ← hnx]
  exact h

theorem each_numbers {param : Nat → Option Ty} {xs : List Float}
    (hxs : ∀ x ∈ xs, x.isFinite = true) {i : Nat}
    (hparam : ∀ k, i ≤ k → k < i + xs.length → param k = some .number) :
    ∃ ds, Each ctx param i (xs.map Json.ofFloat) ds ∧
      ds.map Expr.unplaced = xs.map fun x => .literal [] .number (.number (unsigned x)) := by
  induction xs generalizing i with
  | nil => exact ⟨[], .nil i, rfl⟩
  | cons x xs ih =>
      obtain ⟨hx, hxs⟩ := List.forall_mem_cons.1 hxs
      obtain ⟨ds, hds, hall⟩ := ih hxs (i := i + 1) fun k hk hlt =>
        hparam k (by omega) (by simp; omega)
      have hty : Admits (param i) .number := by
        rw [hparam i (Nat.le_refl i) (by simp)]
        exact admits_self .number
      refine ⟨_ :: ds, .cons (elaborates_number hx hty) hds, ?_⟩
      rw [List.map_cons, hall]
      rfl

end MapStyle
