/-
# `MapStyle.Proofs.Wire.Syntax` — which trees have a wire form that can be read

Every node is written as an array that begins with the name of its form, and its parts follow in
the order in which the form takes them.  There is one exception.  An assertion of an array type is
written as `["array", item, length, input]`, and only three item types can be named there and only
lengths above zero: an assertion of `Array<Object>`, of `Array<Value, 2>` or of an array of length 0
is written all the same, and what is written cannot be read.

* `Ty.hasSyntax`: an assertion of the type can be written.
* `Expr.isWritable`: so can all assertions of a tree.
* `isWritable_of_reads`: a formed tree whose wire form checks anywhere is writable.
-/
import MapStyle.Proofs.Expr.Trees
import MapStyle.Proofs.Wire.Rewiring

namespace MapStyle

open Reporting Typing

/-! ## Written parts in turn -/

def interleave {α : Type} : List α → List α → List α
  | x :: xs, y :: ys => x :: y :: interleave xs ys
  | _, _ => []

theorem inPairs_interleave {α : Type} (rest : List α) : ∀ {xs ys : List α}, xs.length = ys.length →
    inPairs (interleave xs ys ++ rest) = (xs.zip ys ++ (inPairs rest).1, (inPairs rest).2)
  | [], [], _ => rfl
  | _ :: xs, _ :: ys, h => by
      have ih := inPairs_interleave rest (Nat.succ.inj h : xs.length = ys.length)
      simp only [interleave, List.cons_append, inPairs, ih, List.zip_cons_cons]

theorem length_interleave {α : Type} : ∀ {xs ys : List α}, xs.length = ys.length →
    (interleave xs ys).length = 2 * xs.length
  | [], [], _ => rfl
  | _ :: xs, _ :: ys, h => by
      have ih := length_interleave (Nat.succ.inj h : xs.length = ys.length)
      simp only [interleave, List.length_cons, ih]
      omega

namespace Expr

def labelsJson (ls : List Label) : Json := .arr (ls.map Label.toJson)

theorem branchJson_eq (labels : List (List Label)) (outputs : List Json) :
    branchJson labels outputs = interleave (labels.map labelsJson) outputs := by
  induction labels generalizing outputs with
  | nil => rfl
  | cons ls labels ih =>
      cases outputs with
      | nil => rfl
      | cons o outputs => rw [branchJson, ih]; rfl

theorem stopJson_eq (labels : List Float) (outputs : List Json) :
    stopJson labels outputs = interleave (labels.map Json.ofFloat) outputs := by
  induction labels generalizing outputs with
  | nil => rfl
  | cons x labels ih =>
      cases outputs with
      | nil => rfl
      | cons o outputs => rw [stopJson, ih]; rfl

theorem bindingJson_eq (names : List String) (values : List Json) :
    bindingJson names values = interleave (names.map Json.str) values := by
  induction names generalizing values with
  | nil => rfl
  | cons n names ih =>
      cases values with
      | nil => rfl
      | cons v values => rw [bindingJson, ih]; rfl

end Expr

/-! ## Assertions that can be written -/

/-- An item type that an array assertion can name. -/
def Ty.namesItem : Ty → Bool
  | .string => true
  | .number => true
  | .boolean => true
  | _ => false

/-- An assertion of the type can be written: a length only beside a named item type and above zero,
an item type only if it can be named. -/
def Ty.hasSyntax : Ty → Bool
  | .array item none => item == .value || item.namesItem
  | .array item (some n) => item.namesItem && 0 < n
  | _ => true

theorem itemTy?_kindJson (item : Ty) :
    itemTy? (.str (Expr.kindJson item)) = if item.namesItem then some item else none := by
  cases item with
  | array item len => exact (rfl : itemTy? (.str (Expr.kindJson .anyArray)) = none)
  | _ => rfl

/-- The parameters of an array assertion are read as they were written just when the type can be
written. -/
theorem arrayParts?_written (item : Ty) (len : Option Nat) (input : Json) :
    arrayParts? (Expr.arrayParameters item len ++ [input]) =
      if (Ty.array item len).hasSyntax then some (item, len, input) else none := by
  cases len with
  | none =>
      by_cases hitem : item = .value
      · subst hitem
        rfl
      · simp only [Expr.arrayParameters, hitem, ne_eq, not_false_eq_true, not_true_eq_false,
          or_false, if_true, List.append_nil, List.cons_append, List.nil_append, arrayParts?,
          itemTy?_kindJson, Ty.hasSyntax, beq_iff_eq, Bool.or_eq_true, false_or]
        cases item.namesItem <;> rfl
  | some n =>
      have hparams : Expr.arrayParameters item (some n) ++ [input] =
          [.str (Expr.kindJson item), .ofNat n, input] := by
        simp [Expr.arrayParameters]
      rw [hparams]
      simp only [arrayParts?, itemTy?_kindJson, length?_ofNat, Ty.hasSyntax]
      by_cases hitem : item.namesItem = true <;> by_cases hn : 0 < n <;> simp [hitem, hn]

namespace Expr

/-- A node is no assertion of a type that cannot be written. -/
def hasSyntax : Expr → Bool
  | .assertion _ t _ => t.hasSyntax
  | _ => true

/-- Every assertion of a tree can be written. -/
def isWritable (e : Expr) : Bool := e.nodes.all hasSyntax

def areWritable (es : List Expr) : Bool := es.all isWritable

theorem all_nodesOf_hasSyntax (es : List Expr) : (nodesOf es).all hasSyntax = areWritable es :=
  all_nodesOf es

theorem isWritable_coalesce {p : Path} {t : Ty} {args : List Expr} :
    (coalesce p t args).isWritable = areWritable args := by
  simp only [isWritable, nodes, List.all_cons, hasSyntax, Bool.true_and, all_nodesOf_hasSyntax]

theorem isWritable_select {p : Path} {t inputTy : Ty} {input otherwise : Expr} {table : Dict Nat}
    {labels : List (List Label)} {outputs : List Expr} :
    (select p t inputTy input table labels outputs otherwise).isWritable = true ↔
      input.isWritable = true ∧ areWritable outputs = true ∧ otherwise.isWritable = true := by
  simp only [isWritable, nodes, List.all_cons, List.all_append, hasSyntax, Bool.true_and,
    all_nodesOf_hasSyntax, Bool.and_eq_true]

theorem isWritable_curve {p : Path} {t : Ty} {kind : Interpolation} {input : Expr}
    {labels : List Float} {outputs : List Expr} :
    (curve p t kind input labels outputs).isWritable = true ↔
      input.isWritable = true ∧ areWritable outputs = true := by
  simp only [isWritable, nodes, List.all_cons, List.all_append, hasSyntax, Bool.true_and,
    all_nodesOf_hasSyntax, Bool.and_eq_true]

theorem isWritable_letIn {p : Path} {names : List String} {values : List Expr} {body : Expr} :
    (letIn p names values body).isWritable = true ↔
      areWritable values = true ∧ body.isWritable = true := by
  simp only [isWritable, nodes, List.all_cons, List.all_append, hasSyntax, Bool.true_and,
    all_nodesOf_hasSyntax, Bool.and_eq_true]

theorem isWritable_assertion {p : Path} {t : Ty} {inputs : List Expr} :
    (assertion p t inputs).isWritable = true ↔ t.hasSyntax = true ∧ areWritable inputs = true := by
  simp only [isWritable, nodes, List.all_cons, hasSyntax, all_nodesOf_hasSyntax, Bool.and_eq_true]

theorem isWritable_call {p : Path} {t : Ty} {fn : Builtin} {args : List Expr} :
    (call p t fn args).isWritable = areWritable args := by
  simp only [isWritable, nodes, List.all_cons, hasSyntax, Bool.true_and, all_nodesOf_hasSyntax]

end Expr

/-! ## Documents that can be read -/

/-- A document checks in some context. -/
def Reads (j : Json) : Prop := ∃ ctx e, Elaborates ctx j e

theorem reads_of_each {ctx : Context} {expected : Nat → Option Ty} {i : Nat} {js : List Json}
    {es : List Expr} (h : Each ctx expected i js es) : ∀ j ∈ js, Reads j := by
  induction h with
  | nil => simp
  | cons hj _ ih => exact List.forall_mem_cons.2 ⟨⟨_, _, hj⟩, ih⟩

theorem reads_of_outputs {ctx : Context} {js : List Json} {k : Nat} {shared last : Option Ty}
    {es : List Expr} (h : Steps (fun shared (arg, i) => Arg.checkOutput arg ctx i shared) shared
      ((js.map argOf).zipIdx k) last es) : ∀ j ∈ js, Reads j := by
  induction js generalizing k shared es with
  | nil => simp
  | cons j js ih =>
      rcases h with _ | ⟨hstep, hsteps⟩
      exact List.forall_mem_cons.2 ⟨⟨_, _, (clean_checkOutput.1 hstep).1⟩, ih hsteps⟩

/-- Where every step along pairs checks the second part of a pair, all second parts can be read. -/
theorem reads_of_steps {σ β : Type} {step : σ → (Arg × Arg) × Nat → Reporting (σ × Option β)}
    (hstep : ∀ s (p : Json × Json) k mid b,
      Clean (step s ((argOf p.1, argOf p.2), k)) (mid, some b) → Reads p.2)
    {pairs : List (Json × Json)} {k : Nat} {s last : σ} {bs : List β}
    (h : Steps step s ((argPairs pairs).zipIdx k) last bs) : ∀ p ∈ pairs, Reads p.2 := by
  induction pairs generalizing k s bs with
  | nil => simp
  | cons p pairs ih =>
      rcases h with _ | ⟨hfirst, hsteps⟩
      exact List.forall_mem_cons.2 ⟨hstep _ p _ _ _ hfirst, ih hsteps⟩

theorem reads_of_nextBranch {ctx : Context} (s : BranchesSeen) (p : Json × Json) (k : Nat)
    (mid : BranchesSeen) (b : List Label × Expr)
    (h : Clean (nextBranch ctx s ((argOf p.1, argOf p.2), k)) (mid, some b)) : Reads p.2 := by
  obtain ⟨ls, e⟩ := b
  obtain ⟨_, _, _, he, _⟩ := clean_nextBranch.1 h
  exact ⟨_, _, he⟩

theorem reads_of_nextStop {ctx : Context} (s : StopsSeen) (p : Json × Json) (k : Nat)
    (mid : StopsSeen) (b : Float × Expr)
    (h : Clean (nextStop ctx s ((argOf p.1, argOf p.2), k)) (mid, some b)) : Reads p.2 := by
  obtain ⟨x, e⟩ := b
  obtain ⟨_, _, he, _⟩ := clean_nextStop.1 h
  exact ⟨_, _, he⟩

theorem reads_of_bindIn {ctx : Context} (s : Unit) (p : Json × Json) (k : Nat) (mid : Unit)
    (b : String × Expr)
    (h : Clean (bindIn ctx s ((argOf p.1, argOf p.2), k)) (mid, some b)) : Reads p.2 := by
  obtain ⟨n, e⟩ := b
  obtain ⟨_, _, he⟩ := clean_bindIn.1 h
  exact ⟨_, _, he⟩

theorem forall_snd_zip {α β : Type} {P : β → Prop} {xs : List α} {ys : List β}
    (hlen : xs.length = ys.length) (h : ∀ p ∈ xs.zip ys, P p.2) : ∀ y ∈ ys, P y := by
  rw [← List.map_snd_zip (Nat.le_of_eq hlen.symm)]
  intro y hy
  obtain ⟨p, hp, rfl⟩ := List.mem_map.1 hy
  exact h p hp

/-! ## Formed trees that can be read -/

/-- A tree is formed in some scope and against some type. -/
def FormedSomewhere (interpolators : Interpolators) (e : Expr) : Prop :=
  ∃ scope expected, e.Formed interpolators scope expected

/-- If the wire form of a formed tree can be read, the tree is writable. -/
def WritableIfRead (interpolators : Interpolators) (e : Expr) : Prop :=
  FormedSomewhere interpolators e → Reads e.toJson → e.isWritable = true

theorem areWritable_of_reads {interpolators : Interpolators} {es : List Expr}
    {scope : List (String × Ty)} (ih : ∀ e ∈ es, WritableIfRead interpolators e)
    (hformed : ∀ e ∈ es, ∃ expected, e.Formed interpolators scope expected)
    (hreads : ∀ j ∈ Expr.toItems es, Reads j) : Expr.areWritable es = true := by
  rw [Expr.areWritable, List.all_eq_true]
  intro e he
  refine ih e he ⟨scope, hformed e he⟩ (hreads _ ?_)
  rw [Expr.toItems_eq_map]
  exact List.mem_map_of_mem he

/-- The name of an assertion of a type without parameters. -/
theorem form?_kindJson {t : Ty} {n : Nat} (h : Assertable t n)
    (harray : ∀ item len, t ≠ .array item len) :
    form? (Expr.kindJson t) = some (assertion t) := by
  obtain ⟨hnull, hcolor, hvalue, _⟩ := h
  cases t with
  | null => exact absurd rfl hnull
  | color => exact absurd rfl hcolor
  | value => exact absurd rfl hvalue
  | array item len => exact absurd rfl (harray item len)
  | _ => rfl

theorem array_or_not (t : Ty) :
    (∃ item len, t = .array item len) ∨ ∀ item len, t ≠ .array item len := by
  cases t with
  | array item len => exact .inl ⟨item, len, rfl⟩
  | _ => exact .inr fun _ _ h => nomatch h

theorem assertionJson_of_ne {t : Ty} (harray : ∀ item len, t ≠ .array item len)
    (inputs : List Json) : Expr.assertionJson t inputs = .call (Expr.kindJson t) inputs := by
  cases t with
  | array item len => exact absurd rfl (harray item len)
  | _ => rfl

theorem hasSyntax_of_ne {t : Ty} (harray : ∀ item len, t ≠ .array item len) :
    t.hasSyntax = true := by
  cases t with
  | array item len => exact absurd rfl (harray item len)
  | _ => rfl

section Cases

variable {interpolators : Interpolators} {p : Path} {t : Ty}

theorem coalesce_writable {args : List Expr} (ih : ∀ a ∈ args, WritableIfRead interpolators a) :
    WritableIfRead interpolators (.coalesce p t args) := by
  rintro ⟨_, _, hargs, _⟩ ⟨_, _, hread⟩
  obtain ⟨_, h, _⟩ := (elaborates_named rfl).1 hread
  obtain ⟨_, _, hsteps, _⟩ := clean_coalesce.1 h
  exact Expr.isWritable_coalesce.trans
    (areWritable_of_reads ih hargs.each (reads_of_outputs hsteps))

theorem select_writable {inputTy : Ty} {input otherwise : Expr} {table : Dict Nat}
    {labels : List (List Label)} {outputs : List Expr} (ihinput : WritableIfRead interpolators input)
    (ihoutputs : ∀ a ∈ outputs, WritableIfRead interpolators a)
    (ihotherwise : WritableIfRead interpolators otherwise) :
    WritableIfRead interpolators (.select p t inputTy input table labels outputs otherwise) := by
  rintro ⟨_, _, hinput, houtputs, hotherwise, _, hlen, _⟩ ⟨_, _, hread⟩
  obtain ⟨_, h, _⟩ := (elaborates_named rfl).1 hread
  obtain ⟨_, _, _, _, _, heq, hpairs, _, _, _, _, _, hsteps, _, hin, hother, _⟩ :=
    clean_select.1 h
  cases heq
  have hcount : (labels.map Expr.labelsJson).length = (Expr.toItems outputs).length := by
    rw [Expr.toItems_eq_map, List.length_map, List.length_map, hlen]
  rw [Expr.branchJson_eq, inPairs_interleave _ hcount] at hpairs
  cases hpairs
  have hreads := reads_of_steps reads_of_nextBranch hsteps
  rw [inPairs, List.append_nil] at hreads
  have hall := areWritable_of_reads ihoutputs houtputs.each (forall_snd_zip hcount hreads)
  exact Expr.isWritable_select.2 ⟨ihinput ⟨_, _, hinput⟩ ⟨_, _, hin⟩, hall,
    ihotherwise ⟨_, _, hotherwise⟩ ⟨_, _, hother⟩⟩

theorem curve_writable {kind : Interpolation} {input : Expr} {labels : List Float}
    {outputs : List Expr} (ihinput : WritableIfRead interpolators input)
    (ihoutputs : ∀ a ∈ outputs, WritableIfRead interpolators a) :
    WritableIfRead interpolators (.curve p t kind input labels outputs) := by
  rintro ⟨_, _, hinput, houtputs, _, hlen, _⟩ ⟨_, _, hread⟩
  obtain ⟨_, h, _⟩ := (elaborates_named rfl).1 hread
  obtain ⟨_, _, _, _, _, heq, hpairs, _, _, _, _, _, hin, hsteps, _⟩ := clean_curve.1 h
  cases heq
  have hcount : (labels.map Json.ofFloat).length = (Expr.toItems outputs).length := by
    rw [Expr.toItems_eq_map, List.length_map, List.length_map, hlen]
  have hwritten := inPairs_interleave [] hcount
  rw [List.append_nil, inPairs, List.append_nil] at hwritten
  rw [Expr.stopJson_eq, hwritten] at hpairs
  cases hpairs
  have hreads := reads_of_steps reads_of_nextStop hsteps
  have hall := areWritable_of_reads ihoutputs houtputs.each (forall_snd_zip hcount hreads)
  exact Expr.isWritable_curve.2 ⟨ihinput ⟨_, _, hinput⟩ ⟨_, _, hin⟩, hall⟩

theorem letIn_writable {names : List String} {values : List Expr} {body : Expr}
    (ihvalues : ∀ a ∈ values, WritableIfRead interpolators a)
    (ihbody : WritableIfRead interpolators body) :
    WritableIfRead interpolators (.letIn p names values body) := by
  rintro ⟨_, _, hvalues, hbody, hlen, _⟩ ⟨_, _, hread⟩
  obtain ⟨_, h, _⟩ := (elaborates_named rfl).1 hread
  obtain ⟨_, _, _, hpairs, _, _, hsteps, hlast, _⟩ := clean_letIn.1 h
  have hcount : (names.map Json.str).length = (Expr.toItems values).length := by
    rw [Expr.toItems_eq_map, List.length_map, List.length_map, hlen]
  rw [Expr.bindingJson_eq, inPairs_interleave _ hcount] at hpairs
  cases hpairs
  have hreads := reads_of_steps reads_of_bindIn hsteps
  rw [inPairs, List.append_nil] at hreads
  have hall := areWritable_of_reads ihvalues hvalues.each (forall_snd_zip hcount hreads)
  exact Expr.isWritable_letIn.2 ⟨hall, ihbody ⟨_, _, hbody⟩ ⟨_, _, hlast⟩⟩

theorem assertion_writable {inputs : List Expr}
    (ih : ∀ a ∈ inputs, WritableIfRead interpolators a) :
    WritableIfRead interpolators (.assertion p t inputs) := by
  rintro ⟨_, _, _, hassertable, hinputs⟩ ⟨_, _, hread⟩
  rw [Expr.isWritable_assertion]
  rcases array_or_not t with ⟨item, len, rfl⟩ | harray
  · obtain ⟨input, rfl⟩ := List.length_eq_one_iff.1 (hassertable.2.2.2.2 item len rfl)
    obtain ⟨_, h, _⟩ := (elaborates_named rfl).1 hread
    obtain ⟨_, _, _, hparts, _, hin, _⟩ := clean_arrayAssertion.1 h
    rw [Expr.toItems, Expr.toItems, arrayParts?_written] at hparts
    split at hparts
    · rename_i hwritten
      cases hparts
      refine ⟨hwritten, ?_⟩
      rw [Expr.areWritable, List.all_cons, List.all_nil, Bool.and_true]
      exact ih input List.mem_cons_self ⟨_, _, hinputs.1⟩ ⟨_, _, hin⟩
    · cases hparts
  · rw [Expr.toJson, assertionJson_of_ne harray] at hread
    obtain ⟨_, h, _⟩ := (elaborates_named (form?_kindJson hassertable harray)).1 hread
    obtain ⟨_, _, heach, _⟩ := clean_assertion.1 h
    exact ⟨hasSyntax_of_ne harray, areWritable_of_reads ih hinputs.each (reads_of_each heach)⟩

theorem call_writable {fn : Builtin} {args : List Expr}
    (ih : ∀ a ∈ args, WritableIfRead interpolators a) :
    WritableIfRead interpolators (.call p t fn args) := by
  rintro ⟨_, _, _, _, _, _, _, _, _, hargs, _⟩ ⟨_, _, hread⟩
  obtain ⟨_, h, _⟩ := (elaborates_named (form?_name fn)).1 hread
  obtain ⟨_, _, ⟨_, _, _, _, _, heach⟩, _⟩ := clean_call.1 h
  exact Expr.isWritable_call.trans (areWritable_of_reads ih hargs.each (reads_of_each heach))

end Cases

/-- A formed tree whose wire form checks anywhere is writable. -/
theorem isWritable_of_reads {interpolators : Interpolators} (e : Expr) :
    WritableIfRead interpolators e := by
  induction e using Expr.tree_induction with
  | literal p t v => exact fun _ _ => rfl
  | coalesce p t args ih => exact coalesce_writable ih
  | select p t inputTy input table labels outputs otherwise ihinput ihoutputs ihotherwise =>
      exact select_writable ihinput ihoutputs ihotherwise
  | curve p t kind input labels outputs ihinput ihoutputs =>
      exact curve_writable ihinput ihoutputs
  | letIn p names values body ihvalues ihbody => exact letIn_writable ihvalues ihbody
  | var p t name => exact fun _ _ => rfl
  | assertion p t inputs ih => exact assertion_writable ih
  | call p t fn args ih => exact call_writable ih

end MapStyle
