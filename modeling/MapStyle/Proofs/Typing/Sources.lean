/-
# `MapStyle.Proofs.Typing.Sources` — where the nodes of a tree were written

Every node of a checked tree carries the path of the part of the document that it was made of.  That
part checks to the node: a literal was written as a scalar or behind its name, any other node as an
array that begins with the name of the node (`Expr.Written`).  The assertions and readings as a
color that checking inserts were not written; they carry the path of the node that they wrap.

Together with what is known of diagnostics, all keys that checking gives out lead to the right place
(`keys_lead_back`).
-/
import MapStyle.Proofs.Expr.Trees
import MapStyle.Proofs.Typing.Keys
import MapStyle.Expr.Wire

namespace MapStyle

open Reporting Typing

/-! ## Items by their indices -/

/-- What the steps along a list yield comes from the items in their order. -/
theorem Reporting.Steps.getElem? {σ α β : Type} {step : σ → α × Nat → Reporting (σ × Option β)}
    {as : List α} {k : Nat} {s last : σ} {bs : List β} (h : Steps step s (as.zipIdx k) last bs)
    {i : Nat} {b : β} (hb : bs[i]? = some b) :
    ∃ a before after, as[i]? = some a ∧ Clean (step before (a, k + i)) (after, some b) := by
  induction as generalizing k s bs i with
  | nil =>
      cases h
      cases hb
  | cons a as ih =>
      rcases h with _ | ⟨hfirst, hrest⟩
      cases i with
      | zero =>
          cases hb
          exact ⟨a, _, _, rfl, hfirst⟩
      | succ i =>
          obtain ⟨a', before, after, ha', hclean⟩ := ih hrest hb
          rw [Nat.add_right_comm] at hclean
          exact ⟨a', before, after, ha', hclean⟩

theorem getElem?_args {js : List Json} {i : Nat} {arg : Arg} (h : (js.map argOf)[i]? = some arg) :
    ∃ j, js[i]? = some j ∧ arg = argOf j := by
  rw [List.getElem?_map] at h
  obtain ⟨j, hj, harg⟩ := Option.map_eq_some_iff.1 h
  exact ⟨j, hj, harg.symm⟩

section Pairs

variable {σ β : Type} {step : σ → (Arg × Arg) × Nat → Reporting (σ × Option β)}
  {pairs : List (Json × Json)} {s last : σ}

/-- What the steps along pairs of documents yield comes from the pairs in their order. -/
theorem Reporting.Steps.getElem?_argPairs {bs : List β}
    (h : Steps step s (argPairs pairs).zipIdx last bs) {i : Nat} {b : β} (hb : bs[i]? = some b) :
    ∃ p before after, pairs[i]? = some p ∧
      Clean (step before ((argOf p.1, argOf p.2), i)) (after, some b) := by
  obtain ⟨args, before, after, hargs, hclean⟩ := h.getElem? hb
  rw [argPairs, List.getElem?_map] at hargs
  obtain ⟨p, hp, rfl⟩ := Option.map_eq_some_iff.1 hargs
  rw [Nat.zero_add] at hclean
  exact ⟨p, before, after, hp, hclean⟩

theorem Reporting.Steps.exists_of_mem_outputs {γ : Type} {bs : List (γ × Expr)}
    {step : σ → (Arg × Arg) × Nat → Reporting (σ × Option (γ × Expr))}
    (h : Steps step s (argPairs pairs).zipIdx last bs) {e : Expr} (he : e ∈ bs.map (·.2)) :
    ∃ i p c before after, pairs[i]? = some p ∧
      Clean (step before ((argOf p.1, argOf p.2), i)) (after, some (c, e)) := by
  obtain ⟨⟨c, _⟩, hmem, rfl⟩ := List.mem_map.1 he
  obtain ⟨i, hi⟩ := List.mem_iff_getElem?.1 hmem
  obtain ⟨p, before, after, hp, hclean⟩ := h.getElem?_argPairs hi
  exact ⟨i, p, c, before, after, hp, hclean⟩

end Pairs

namespace Typing

/-! ## Forms by their names -/

/-- The forms with the names that begin them. -/
inductive Begins : String → Form → Prop
  | literal : Begins "literal" literal
  | coalesce : Begins "coalesce" coalesce
  | select : Begins "match" select
  | curve : Begins "curve" curve
  | letIn : Begins "let" letIn
  | var : Begins "var" var
  | assertion (t : Ty) : Begins (Expr.kindJson t) (assertion t)
  | arrayAssertion : Begins "array" arrayAssertion
  | call (fn : Builtin) : Begins fn.name (call fn)

theorem begins {name : String} {form : Form} (h : form? name = some form) : Begins name form := by
  simp only [form?] at h
  split at h
  · exact Option.some.inj h ▸ .literal
  · exact Option.some.inj h ▸ .coalesce
  · exact Option.some.inj h ▸ .select
  · exact Option.some.inj h ▸ .curve
  · exact Option.some.inj h ▸ .letIn
  · exact Option.some.inj h ▸ .var
  · exact Option.some.inj h ▸ .assertion .number
  · exact Option.some.inj h ▸ .assertion .string
  · exact Option.some.inj h ▸ .assertion .boolean
  · exact Option.some.inj h ▸ .assertion .object
  · exact Option.some.inj h ▸ .arrayAssertion
  · obtain ⟨fn, hfn, rfl⟩ := Option.map_eq_some_iff.1 h
    have hname := List.find?_some hfn
    exact beq_iff_eq.1 hname ▸ .call fn

/-! ## What is written -/

/-- What a document checks to before it is brought in line with the expected type. -/
def Parses (ctx : Context) (j : Json) (d : Expr) : Prop :=
  (IsScalar j ∧ Clean (scalar j ctx) (some d)) ∨
    ∃ name js form, j = .call name js ∧ form? name = some form ∧
      Clean (form (js.map argOf) ctx) (some d)

/-- Every checked tree is what its document was parsed to, or an addition on top of it. -/
theorem elaborates_iff_parses {ctx : Context} {j : Json} {e : Expr} :
    Elaborates ctx j e ↔ ∃ d, Parses ctx j d ∧ Conforms ctx.expected d e := by
  cases j with
  | arr items =>
      refine elaborates_arr.trans ⟨?_, ?_⟩
      · rintro ⟨name, js, form, d, rfl, hform, hclean, hconf⟩
        exact ⟨d, .inr ⟨name, js, form, rfl, hform, hclean⟩, hconf⟩
      · rintro ⟨d, ⟨hscalar, _⟩ | ⟨name, js, form, hj, hform, hclean⟩, hconf⟩
        · cases hscalar
        · exact ⟨name, js, form, d, Json.arr.inj hj, hform, hclean, hconf⟩
  | obj fields =>
      refine iff_of_false not_elaborates_obj ?_
      rintro ⟨d, ⟨hscalar, _⟩ | ⟨_, _, _, hj, _⟩, _⟩
      · cases hscalar
      · cases hj
  | null | bool _ | num _ | str _ =>
      refine (elaborates_scalar (by trivial)).trans (exists_congr fun d => and_congr_left fun _ => ?_)
      refine ⟨fun h => .inl ⟨trivial, h⟩, ?_⟩
      rintro (⟨_, h⟩ | ⟨_, _, _, hj, _⟩)
      · exact h
      · cases hj

end Typing

namespace Expr

/-- The name that a node is written with; literals need none. -/
def name? : Expr → Option String
  | literal _ _ _ => none
  | coalesce _ _ _ => some "coalesce"
  | select _ _ _ _ _ _ _ _ => some "match"
  | curve _ _ _ _ _ _ => some "curve"
  | letIn _ _ _ _ => some "let"
  | var _ _ _ => some "var"
  | assertion _ t _ => some (kindJson t)
  | call _ _ fn _ => some fn.name

/-- A document has the outer form of a node: that of a scalar or of a quoted value for a literal,
and that of an array that begins with the name for any other node. -/
def HasForm (n : Expr) (part : Json) : Prop :=
  match n.name? with
  | none => IsScalar part ∨ ∃ v, part = .call "literal" [v]
  | some name => ∃ args, part = .call name args

/-- A node is what a part of a document was parsed to, and carries the path of the part. -/
structure Written (r : Interpolators) (part : Json) (n : Expr) : Prop where
  form : n.HasForm part
  parses : ∃ ctx : Context, ctx.path = n.path ∧ ctx.interpolators = r ∧ Parses ctx part n

/-- A node was written, or added on top of a node that was, whose path it carries. -/
def ComesFrom (r : Interpolators) (part : Json) (n : Expr) : Prop :=
  Written r part n ∨ ∃ d, Written r part d ∧
    (n = .call d.path .color .toColor [d] ∨ ∃ t, n = .assertion d.path t [d])

end Expr

namespace Typing

/-! ## Arguments of forms -/

/-- At a path, a document checks to a tree. -/
def ChecksAt (r : Interpolators) (p : Path) (j : Json) (e : Expr) : Prop :=
  ∃ ctx : Context, ctx.path = p ∧ ctx.interpolators = r ∧ Elaborates ctx j e

theorem checksAt_child {ctx : Context} {i : Nat} {expected : Option Ty} {j : Json} {e : Expr}
    (h : Elaborates (ctx.child i expected) j e) :
    ChecksAt ctx.interpolators (ctx.path ++ [i]) j e :=
  ⟨ctx.child i expected, rfl, rfl, h⟩

/-- A tree is what one of the arguments of a form checks to at its index. -/
def IsArgument (ctx : Context) (js : List Json) (e : Expr) : Prop :=
  ∃ k item, js[k]? = some item ∧ ChecksAt ctx.interpolators (ctx.path ++ [k + 1]) item e

/-- A node is made of a call: it carries the path of the call, has its form, and below it are
arguments of the call. -/
def MadeOf (ctx : Context) (name : String) (js : List Json) (d : Expr) : Prop :=
  d.path = ctx.path ∧ d.HasForm (.call name js) ∧ ∀ e ∈ d.children, IsArgument ctx js e

variable {ctx : Context} {name : String} {js : List Json} {d : Expr}

/-- What documents check to one by one comes from them at their indices. -/
theorem Each.exists_of_mem {expected : Nat → Option Ty} {k : Nat} {es : List Expr}
    (h : Each ctx expected k js es) : ∀ e ∈ es, ∃ i item, js[i]? = some item ∧
      Elaborates (ctx.child (k + i + 1) (expected (k + i))) item e := by
  induction h with
  | nil => exact fun _ he => nomatch he
  | @cons k j e js es hj _ ih =>
      refine List.forall_mem_cons.2 ⟨⟨0, j, rfl, hj⟩, fun e he => ?_⟩
      obtain ⟨i, item, hi, helaborates⟩ := ih e he
      have hindex : k + 1 + i = k + (i + 1) := by omega
      rw [hindex] at helaborates
      exact ⟨i + 1, item, hi, helaborates⟩

theorem isArgument_of_each {expected : Nat → Option Ty} {es : List Expr}
    (h : Each ctx expected 0 js es) : ∀ e ∈ es, IsArgument ctx js e := by
  intro e he
  obtain ⟨i, item, hi, helaborates⟩ := h.exists_of_mem e he
  rw [Nat.zero_add] at helaborates
  exact ⟨i, item, hi, checksAt_child helaborates⟩

theorem coalesce_madeOf (h : Clean (coalesce (js.map argOf) ctx) (some d)) :
    MadeOf ctx "coalesce" js d := by
  obtain ⟨shared, es, hsteps, rfl⟩ := clean_coalesce.1 h
  refine ⟨rfl, ⟨js, rfl⟩, fun e he => ?_⟩
  obtain ⟨i, hi⟩ := List.mem_iff_getElem?.1 he
  obtain ⟨arg, before, after, harg, hclean⟩ := hsteps.getElem? hi
  obtain ⟨item, hitem, rfl⟩ := getElem?_args harg
  obtain ⟨helaborates, _⟩ := clean_checkOutput.1 hclean
  rw [Nat.add_comm] at helaborates
  exact ⟨i, item, hitem, checksAt_child helaborates⟩

theorem select_madeOf (h : Clean (select (js.map argOf) ctx) (some d)) :
    MadeOf ctx "match" js d := by
  obtain ⟨_, input, rest, branches, last, rfl, hpairs, seen, checked, e, otherwise, inputTy,
    hsteps, _, hinput, hotherwise, rfl⟩ := clean_select.1 h
  have hcount := Indexed.length_eq_of_inPairs hpairs
  refine ⟨rfl, ⟨_, rfl⟩, List.forall_mem_cons.2 ⟨⟨0, input, rfl, checksAt_child hinput⟩, ?_⟩⟩
  refine List.forall_mem_append.2 ⟨fun output houtput => ?_, List.forall_mem_singleton.2 ?_⟩
  · obtain ⟨i, p, _, _, _, hp, hclean⟩ := hsteps.exists_of_mem_outputs houtput
    obtain ⟨_, _, _, helaborates, _⟩ := clean_nextBranch.1 hclean
    obtain ⟨_, hitem⟩ := getElem?_pair_of_inPairs hpairs hp
    exact ⟨2 * i + 2, p.2, hitem, checksAt_child helaborates⟩
  · have hlast : (input :: rest)[2 * branches.length + 1]? = some last :=
      Indexed.getElem?_of_inPairs hpairs
    rw [List.length_cons, hcount] at hotherwise
    exact ⟨2 * branches.length + 1, last, hlast, checksAt_child hotherwise⟩

theorem curve_madeOf (h : Clean (curve (js.map argOf) ctx) (some d)) :
    MadeOf ctx "curve" js d := by
  obtain ⟨_, description, input, rest, stops, rfl, hpairs, kind, e, seen, checked, _, hinput,
    hsteps, _, rfl⟩ := clean_curve.1 h
  refine ⟨rfl, ⟨_, rfl⟩, List.forall_mem_cons.2 ⟨⟨1, input, rfl, checksAt_child hinput⟩, ?_⟩⟩
  intro output houtput
  obtain ⟨i, p, _, _, _, hp, hclean⟩ := hsteps.exists_of_mem_outputs houtput
  obtain ⟨_, _, helaborates, _⟩ := clean_nextStop.1 hclean
  obtain ⟨_, hitem⟩ := getElem?_pair_of_inPairs hpairs hp
  exact ⟨2 * i + 3, p.2, hitem, checksAt_child helaborates⟩

theorem letIn_madeOf (h : Clean (letIn (js.map argOf) ctx) (some d)) :
    MadeOf ctx "let" js d := by
  obtain ⟨_, bindings, last, hpairs, bound, body, hsteps, hbody, rfl⟩ := clean_letIn.1 h
  have hcount := Indexed.length_eq_of_inPairs hpairs
  refine ⟨rfl, ⟨js, rfl⟩, List.forall_mem_append.2 ⟨fun value hvalue => ?_,
    List.forall_mem_singleton.2 ?_⟩⟩
  · obtain ⟨i, p, _, _, _, hp, hclean⟩ := hsteps.exists_of_mem_outputs hvalue
    obtain ⟨_, _, helaborates⟩ := clean_bindIn.1 hclean
    obtain ⟨_, hitem⟩ := getElem?_pair_of_inPairs hpairs hp
    exact ⟨2 * i + 1, p.2, hitem, checksAt_child helaborates⟩
  · have hlast : js[2 * bindings.length]? = some last := Indexed.getElem?_of_inPairs hpairs
    rw [hcount] at hbody
    exact ⟨2 * bindings.length, last, hlast, ctx.childWith _ _, rfl, rfl, hbody⟩

theorem arrayAssertion_madeOf (h : Clean (arrayAssertion (js.map argOf) ctx) (some d)) :
    MadeOf ctx "array" js d := by
  obtain ⟨item, len, input, hparts, e, he, rfl⟩ := clean_arrayAssertion.1 h
  have hname : Expr.kindJson (.array item len) = "array" := by
    rw [Expr.kindJson, Ty.kindName]
    decide
  refine ⟨rfl, ⟨js, by rw [hname]⟩, List.forall_mem_singleton.2 ?_⟩
  -- the input is the last argument
  match js with
  | [] => cases hparts
  | [_] =>
      cases hparts
      exact ⟨0, input, rfl, checksAt_child he⟩
  | [_, _] =>
      obtain ⟨_, _, heq⟩ := Option.map_eq_some_iff.1 hparts
      cases heq
      exact ⟨1, input, rfl, checksAt_child he⟩
  | [_, _, _] =>
      obtain ⟨_, _, hparts⟩ := Option.bind_eq_some_iff.1 hparts
      obtain ⟨_, _, heq⟩ := Option.map_eq_some_iff.1 hparts
      cases heq
      exact ⟨2, input, rfl, checksAt_child he⟩
  | _ :: _ :: _ :: _ :: _ => cases hparts

/-- What a form yields is made of its call. -/
theorem Begins.madeOf {form : Form} (hbegins : Begins name form)
    (h : Clean (form (js.map argOf) ctx) (some d)) : MadeOf ctx name js d := by
  cases hbegins with
  | literal =>
      obtain ⟨v, rfl, hclean⟩ := clean_literal.1 h
      obtain ⟨_, rfl⟩ := clean_literalOf.1 hclean
      exact ⟨rfl, .inr ⟨v, rfl⟩, fun _ he => nomatch he⟩
  | coalesce => exact coalesce_madeOf h
  | select => exact select_madeOf h
  | curve => exact curve_madeOf h
  | letIn => exact letIn_madeOf h
  | var =>
      obtain ⟨_, _, _, _, rfl⟩ := clean_var.1 h
      exact ⟨rfl, ⟨js, rfl⟩, fun _ he => nomatch he⟩
  | assertion t =>
      obtain ⟨_, es, heach, rfl⟩ := clean_assertion.1 h
      exact ⟨rfl, ⟨js, rfl⟩, isArgument_of_each heach⟩
  | arrayAssertion => exact arrayAssertion_madeOf h
  | call fn =>
      obtain ⟨_, es, ⟨_, _, _, _, _, heach⟩, rfl⟩ := clean_call.1 h
      exact ⟨rfl, ⟨js, rfl⟩, isArgument_of_each heach⟩

/-! ## Nodes -/

/-- Wherever a document is checked, the nodes of the tree come from its parts. -/
def Sourced (j : Json) : Prop :=
  ∀ (ctx : Context) (e : Expr), Elaborates ctx j e → ∀ n ∈ e.nodes, ∃ below part,
    n.path = ctx.path ++ below ∧ j.part? below = some part ∧ n.ComesFrom ctx.interpolators part

/-- What is made of a call comes from the call and its arguments. -/
theorem MadeOf.nodes (hmade : MadeOf ctx name js d) (ih : ∀ j ∈ js, Sourced j) {n : Expr}
    (hn : n ∈ d.nodes) (hne : n ≠ d) : ∃ below part, n.path = ctx.path ++ below ∧
      (Json.call name js).part? below = some part ∧ n.ComesFrom ctx.interpolators part := by
  obtain ⟨_, _, hchildren⟩ := hmade
  rw [Expr.nodes_eq, Expr.nodesOf_eq_flatMap] at hn
  obtain ⟨e, he, hn⟩ := List.mem_flatMap.1 ((List.mem_cons.1 hn).resolve_left hne)
  obtain ⟨k, item, hitem, inner, hpath, hinterpolators, helaborates⟩ := hchildren e he
  obtain ⟨below, part, hnpath, hpart, hcomes⟩ :=
    ih item (List.mem_of_getElem? hitem) inner e helaborates n hn
  refine ⟨(k + 1) :: below, part, ?_, ?_, hinterpolators ▸ hcomes⟩
  · rw [hnpath, hpath, List.append_assoc]
    rfl
  · have hitem : (Json.call name js).item? (k + 1) = some item := hitem
    rw [Json.part?_cons hitem, hpart]

theorem Parses.written {j : Json} (h : Parses ctx j d) :
    d.path = ctx.path ∧ d.Written ctx.interpolators j := by
  have hparses := h
  rcases h with ⟨hscalar, hclean⟩ | ⟨name, js, form, rfl, hform, hclean⟩
  · have hliteral : ∃ v, Clean (literalOf v ctx) (some d) := by
      rcases clean_scalar.1 hclean with ⟨_, c, _, _, _, hclean⟩ | ⟨_, hclean⟩
      · exact ⟨.color c, hclean⟩
      · exact ⟨_, hclean⟩
    obtain ⟨v, hclean⟩ := hliteral
    obtain ⟨_, rfl⟩ := clean_literalOf.1 hclean
    exact ⟨rfl, .inl hscalar, ctx, rfl, rfl, hparses⟩
  · obtain ⟨hpath, hwritten, _⟩ := (begins hform).madeOf hclean
    exact ⟨hpath, hwritten, ctx, hpath.symm, rfl, hparses⟩

/-- The nodes of what a document is parsed to come from its parts. -/
theorem Parses.nodes {j : Json} (h : Parses ctx j d)
    (ih : ∀ name js, j = .call name js → ∀ item ∈ js, Sourced item) {n : Expr}
    (hn : n ∈ d.nodes) : ∃ below part, n.path = ctx.path ++ below ∧ j.part? below = some part ∧
      n.ComesFrom ctx.interpolators part := by
  by_cases hself : n = d
  · obtain ⟨hpath, hwritten⟩ := h.written
    subst hself
    exact ⟨[], j, by rw [hpath, List.append_nil], rfl, .inl hwritten⟩
  · rcases h with ⟨_, hclean⟩ | ⟨name, js, form, rfl, hform, hclean⟩
    · -- a scalar has no nodes but itself
      rcases clean_scalar.1 hclean with ⟨_, _, _, _, _, hclean⟩ | ⟨_, hclean⟩ <;>
      · obtain ⟨_, rfl⟩ := clean_literalOf.1 hclean
        exact absurd (List.mem_singleton.1 hn) hself
    · exact ((begins hform).madeOf hclean).nodes (ih name js rfl) hn hself

theorem sourced_of_parts {j : Json}
    (ih : ∀ name js, j = .call name js → ∀ item ∈ js, Sourced item) : Sourced j := by
  intro ctx e h n hn
  obtain ⟨d, hparses, hconf⟩ := elaborates_iff_parses.1 h
  obtain ⟨hpath, hwritten⟩ := hparses.written
  -- An addition has no nodes but itself and those of what it stands on.
  have hadded : ∀ {e n : Expr}, n ∈ e.nodes → e.path = d.path → e.children = [d] →
      e.ComesFrom ctx.interpolators j → ∃ below part, n.path = ctx.path ++ below ∧
        j.part? below = some part ∧ n.ComesFrom ctx.interpolators part := by
    intro e n hn hsame hchildren hcomes
    rw [Expr.nodes_eq, hchildren, Expr.nodesOf_eq_flatMap, List.flatMap_singleton] at hn
    rcases List.mem_cons.1 hn with rfl | hn
    · exact ⟨[], j, by rw [hsame, hpath, List.append_nil], rfl, hcomes⟩
    · exact hparses.nodes ih hn
  cases hconf with
  | kept => exact hparses.nodes ih hn
  | colored => exact hadded hn rfl rfl (.inr ⟨d, hwritten, .inl rfl⟩)
  | asserted => exact hadded hn rfl rfl (.inr ⟨d, hwritten, .inr ⟨_, rfl⟩⟩)

/-- Every node comes from the part of the document that its path leads to. -/
theorem sourced (j : Json) : Sourced j := by
  induction j using json_induction with
  | scalar j hj =>
      refine sourced_of_parts fun name js heq => ?_
      rw [heq] at hj
      cases hj
  | arr items ih =>
      refine sourced_of_parts fun name js heq item hitem => ih item ?_
      rw [Json.arr.inj heq]
      exact List.mem_cons_of_mem _ hitem
  | obj fields => exact sourced_of_parts fun name js heq => nomatch heq

end Typing

/-! ## Compiled expressions -/

/-- All keys that compiling a document gives out lead to the right place.  The key of a diagnostic,
read as indices with dots between them, leads through nested arrays to a part of the document, which
is what the diagnostic quotes if it quotes anything; only the missing base of an exponential
interpolation without parameters is looked for one place behind the end of its description.  The key
of a node leads to the part that was parsed to the node, or to the node that an added assertion or
reading as a color wraps. -/
theorem keys_lead_back (j : Json) (expected : Option Ty) (interpolators : Interpolators) :
    (∀ ds, compile j expected interpolators = .error ds → ∀ d ∈ ds,
      (∃ part, j.partAt? d.path.text = some part ∧ d.complaint.Quotes part) ∨
        (d.complaint = .missingBase ∧ ∃ above : Path, d.path = above ++ [1] ∧
          j.partAt? above.text = some (.call "exponential" []))) ∧
      ∀ c, compile j expected interpolators = .ok c → ∀ n ∈ c.root.nodes,
        ∃ part, j.partAt? n.path.text = some part ∧ n.ComesFrom interpolators part := by
  constructor
  · intro ds h d hd
    -- what is refused is what the check reports below the root
    obtain ⟨_, rfl⟩ := ((fails_iff_reports j).2 expected interpolators ds).1 h
    obtain ⟨below, hpath, habout⟩ := located j _ d hd
    have hpath : d.path = below := hpath
    rw [Json.partAt?_text, hpath]
    generalize d.complaint = complaint at habout
    cases habout with
    | part hpart hquotes => exact .inl ⟨_, hpart, hquotes⟩
    | behind hbelow hpart =>
        refine .inr ⟨rfl, _, hbelow, ?_⟩
        rw [Json.partAt?_text]
        exact hpart
  · intro c h n hn
    obtain ⟨_, _, helaborates⟩ := formed_of_compile h
    obtain ⟨below, part, hpath, hpart, hcomes⟩ := sourced j _ _ helaborates n hn
    have hpath : n.path = below := hpath
    exact ⟨part, by rw [Json.partAt?_text, hpath, hpart], hcomes⟩

/-- An exponential curve without a base, and with a function that nobody knows. -/
def baseless : Json :=
  .call "curve" [.call "exponential" [], .call "zoom" [], .ofNat 0, .ofNat 1, .ofNat 10,
    .call "frob" []]

theorem keys_baseless :
    (∃ ds, compile baseless none .standard = .error ds ∧
      ds.map (fun d => d.path.text) = ["1.1", "6.0"] ∧ ∀ d ∈ ds,
        (∃ part, baseless.partAt? d.path.text = some part ∧ d.complaint.Quotes part) ∨
          (d.complaint = .missingBase ∧ ∃ above : Path, d.path = above ++ [1] ∧
            baseless.partAt? above.text = some (.call "exponential" []))) ∧
      ∃ c, compile (.call "upcase" [.call "get" [.str "x"]]) none .standard = .ok c ∧
        c.root.nodes.map (fun n => n.path.text) = ["", "1", "1", "1.1"] ∧ ∀ n ∈ c.root.nodes,
          ∃ part, (Json.call "upcase" [.call "get" [.str "x"]]).partAt? n.path.text = some part ∧
            n.ComesFrom .standard part := by
  obtain ⟨ds, herror, hkeys⟩ : ∃ ds, compile baseless none .standard = .error ds ∧
      ds.map (fun d => d.path.text) = ["1.1", "6.0"] := ⟨_, rfl, rfl⟩
  obtain ⟨c, hok, hpaths⟩ : ∃ c,
      compile (.call "upcase" [.call "get" [.str "x"]]) none .standard = .ok c ∧
        c.root.nodes.map (fun n => n.path.text) = ["", "1", "1", "1.1"] := ⟨_, rfl, rfl⟩
  exact ⟨⟨ds, herror, hkeys, (keys_lead_back baseless none .standard).1 ds herror⟩,
    c, hok, hpaths, (keys_lead_back _ none .standard).2 c hok⟩

end MapStyle
