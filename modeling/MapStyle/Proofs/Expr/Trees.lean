/-
# `MapStyle.Proofs.Expr.Trees` — induction on trees, and trees changed node by node

`Expr.mapNodes` changes every node of a tree, the nodes below it first.  Most of what can be seen of
a tree is `Compositional`: what is seen of a node depends on its children only by what is seen of
them.  The type, the wire form and the evaluation of a tree are of this kind.  A change of nodes that
does not show at any one node then does not show of the tree (`Compositional.mapNodes`).

The first such change takes the paths away (`Expr.unplaced`).  Nothing but the paths is lost, so two
trees that differ in paths alone are interchangeable.
-/
import Mathlib
import MapStyle.Compiled

namespace MapStyle.Expr

/-! ## Induction -/

/-- Induction on a tree by the nodes directly below a node. -/
theorem tree_induction {P : Expr → Prop} (literal : ∀ p t v, P (.literal p t v))
    (coalesce : ∀ p t args, (∀ a ∈ args, P a) → P (.coalesce p t args))
    (select : ∀ p t inputTy input table labels outputs otherwise, P input → (∀ a ∈ outputs, P a) →
      P otherwise → P (.select p t inputTy input table labels outputs otherwise))
    (curve : ∀ p t kind input labels outputs, P input → (∀ a ∈ outputs, P a) →
      P (.curve p t kind input labels outputs))
    (letIn : ∀ p names values body, (∀ a ∈ values, P a) → P body → P (.letIn p names values body))
    (var : ∀ p t name, P (.var p t name))
    (assertion : ∀ p t inputs, (∀ a ∈ inputs, P a) → P (.assertion p t inputs))
    (call : ∀ p t fn args, (∀ a ∈ args, P a) → P (.call p t fn args)) (e : Expr) : P e :=
  @Expr.rec P (fun es => ∀ e ∈ es, P e) literal coalesce select curve letIn var assertion call
    (fun _ h => nomatch h) (fun _ _ he hes => List.forall_mem_cons.2 ⟨he, hes⟩) e

/-- Induction on a tree by the children of a node, for what holds of all nodes for one reason. -/
theorem children_induction {P : Expr → Prop} (node : ∀ e, (∀ d ∈ e.children, P d) → P e)
    (e : Expr) : P e := by
  induction e using tree_induction with
  | literal p t v => exact node _ fun _ h => nomatch h
  | coalesce p t args ih => exact node _ ih
  | select p t inputTy input table labels outputs otherwise ihinput ihoutputs ihotherwise =>
      refine node _ (List.forall_mem_cons.2 ⟨ihinput, List.forall_mem_append.2 ⟨ihoutputs, ?_⟩⟩)
      exact List.forall_mem_singleton.2 ihotherwise
  | curve p t kind input labels outputs ihinput ihoutputs =>
      exact node _ (List.forall_mem_cons.2 ⟨ihinput, ihoutputs⟩)
  | letIn p names values body ihvalues ihbody =>
      refine node _ (List.forall_mem_append.2 ⟨ihvalues, ?_⟩)
      exact List.forall_mem_singleton.2 ihbody
  | var p t name => exact node _ fun _ h => nomatch h
  | assertion p t inputs ih => exact node _ ih
  | call p t fn args ih => exact node _ ih

/-! ## Lists of trees -/

theorem toItems_eq_map (es : List Expr) : toItems es = es.map toJson := by
  induction es with
  | nil => rfl
  | cons e es ih => rw [toItems, ih]; rfl

theorem nodesOf_eq_flatMap (es : List Expr) : nodesOf es = es.flatMap nodes := by
  induction es with
  | nil => rfl
  | cons e es ih => rw [nodesOf, ih]; rfl

theorem all_nodesOf {p : Expr → Bool} (es : List Expr) :
    (nodesOf es).all p = es.all fun e => e.nodes.all p := by
  rw [nodesOf_eq_flatMap, List.all_flatMap]

theorem nodes_eq (e : Expr) : e.nodes = e :: nodesOf e.children := by
  cases e <;> simp [nodes, children, nodesOf_eq_flatMap]

theorem mem_nodesOf {e n : Expr} {es : List Expr} (he : e ∈ es) (hn : n ∈ e.nodes) :
    n ∈ nodesOf es := by
  rw [nodesOf_eq_flatMap]
  exact List.mem_flatMap.2 ⟨e, he, hn⟩

theorem mem_nodes_of_child {e d n : Expr} (hd : d ∈ e.children) (hn : n ∈ d.nodes) :
    n ∈ e.nodes := by
  rw [nodes_eq]
  exact List.mem_cons_of_mem _ (mem_nodesOf hd hn)

theorem mem_nodes_self (e : Expr) : e ∈ e.nodes := by
  rw [nodes_eq]
  exact List.mem_cons_self

theorem evalEach_eq_map (scene : Scene) (es : List Expr) :
    evalEach scene es = es.map (eval scene) := by
  induction es with
  | nil => rfl
  | cons e es ih => rw [evalEach, ih]; rfl

theorem length_evalEach (scene : Scene) (es : List Expr) :
    (evalEach scene es).length = es.length := by
  rw [evalEach_eq_map, List.length_map]

/-! ## Changing nodes -/

/-- A node with its children changed. -/
def mapChildren (f : Expr → Expr) : Expr → Expr
  | .literal p t v => .literal p t v
  | .coalesce p t args => .coalesce p t (args.map f)
  | .select p t inputTy input table labels outputs otherwise =>
    .select p t inputTy (f input) table labels (outputs.map f) (f otherwise)
  | .curve p t kind input labels outputs => .curve p t kind (f input) labels (outputs.map f)
  | .letIn p names values body => .letIn p names (values.map f) (f body)
  | .var p t name => .var p t name
  | .assertion p t inputs => .assertion p t (inputs.map f)
  | .call p t fn args => .call p t fn (args.map f)

mutual

/-- A tree with every node changed, the nodes below it first. -/
def mapNodes (f : Expr → Expr) : Expr → Expr
  | .literal p t v => f (.literal p t v)
  | .coalesce p t args => f (.coalesce p t (mapNodesAll f args))
  | .select p t inputTy input table labels outputs otherwise =>
    f (.select p t inputTy (mapNodes f input) table labels (mapNodesAll f outputs)
      (mapNodes f otherwise))
  | .curve p t kind input labels outputs =>
    f (.curve p t kind (mapNodes f input) labels (mapNodesAll f outputs))
  | .letIn p names values body => f (.letIn p names (mapNodesAll f values) (mapNodes f body))
  | .var p t name => f (.var p t name)
  | .assertion p t inputs => f (.assertion p t (mapNodesAll f inputs))
  | .call p t fn args => f (.call p t fn (mapNodesAll f args))

def mapNodesAll (f : Expr → Expr) : List Expr → List Expr
  | [] => []
  | e :: es => mapNodes f e :: mapNodesAll f es

end

section

variable {f g : Expr → Expr}

theorem mapNodesAll_eq_map (es : List Expr) : mapNodesAll f es = es.map (mapNodes f) := by
  induction es with
  | nil => rfl
  | cons e es ih => rw [mapNodesAll, ih]; rfl

theorem mapNodes_eq (f : Expr → Expr) (e : Expr) :
    e.mapNodes f = f (e.mapChildren (mapNodes f)) := by
  cases e <;> simp only [mapNodes, mapChildren, mapNodesAll_eq_map]

theorem children_mapChildren (e : Expr) : (e.mapChildren f).children = e.children.map f := by
  cases e <;> simp [mapChildren, children]

theorem mapChildren_mapChildren (e : Expr) :
    (e.mapChildren f).mapChildren g = e.mapChildren (g ∘ f) := by
  cases e <;> simp [mapChildren]

theorem mapChildren_congr {e : Expr} (h : ∀ d ∈ e.children, f d = g d) :
    e.mapChildren f = e.mapChildren g := by
  cases e with
  | literal p t v => rfl
  | coalesce p t args => exact congrArg (coalesce p t) (List.map_congr_left h)
  | select p t inputTy input table labels outputs otherwise =>
      obtain ⟨hinput, h⟩ := List.forall_mem_cons.1 h
      obtain ⟨houtputs, hotherwise⟩ := List.forall_mem_append.1 h
      rw [mapChildren, mapChildren, hinput, List.map_congr_left houtputs,
        List.forall_mem_singleton.1 hotherwise]
  | curve p t kind input labels outputs =>
      obtain ⟨hinput, houtputs⟩ := List.forall_mem_cons.1 h
      rw [mapChildren, mapChildren, hinput, List.map_congr_left houtputs]
  | letIn p names values body =>
      obtain ⟨hvalues, hbody⟩ := List.forall_mem_append.1 h
      rw [mapChildren, mapChildren, List.map_congr_left hvalues,
        List.forall_mem_singleton.1 hbody]
  | var p t name => rfl
  | assertion p t inputs => exact congrArg (assertion p t) (List.map_congr_left h)
  | call p t fn args => exact congrArg (call p t fn) (List.map_congr_left h)

end

/-! ## What does not show -/

/-- What is seen of a node depends on its children only by what is seen of them. -/
def Compositional {α : Type} (view : Expr → α) : Prop :=
  ∀ (f : Expr → Expr) (e : Expr), (∀ d ∈ e.children, view (f d) = view d) →
    view (e.mapChildren f) = view e

/-- What is not seen of any node is not seen of a tree. -/
theorem Compositional.mapNodes {α : Type} {view : Expr → α} (h : Compositional view)
    {f : Expr → Expr} (hf : ∀ e, view (f e) = view e) (e : Expr) :
    view (e.mapNodes f) = view e := by
  induction e using children_induction with
  | node e ih => rw [mapNodes_eq, hf, h _ e ih]

theorem map_view {α : Type} {view : Expr → α} {f : Expr → Expr} (es : List Expr)
    (h : ∀ e ∈ es, view (f e) = view e) : (es.map f).map view = es.map view := by
  rw [List.map_map]
  exact List.map_congr_left h

theorem compositional_ty : Compositional ty := by
  intro f e h
  cases e with
  | letIn p names values body => exact h body (List.mem_append_right _ List.mem_cons_self)
  | _ => rfl

theorem compositional_toJson : Compositional toJson := by
  intro f e h
  cases e with
  | literal p t v => rfl
  | coalesce p t args => simp only [mapChildren, toJson, toItems_eq_map, map_view args h]
  | select p t inputTy input table labels outputs otherwise =>
      obtain ⟨hinput, h⟩ := List.forall_mem_cons.1 h
      obtain ⟨houtputs, hotherwise⟩ := List.forall_mem_append.1 h
      simp only [mapChildren, toJson, toItems_eq_map, hinput, map_view outputs houtputs,
        List.forall_mem_singleton.1 hotherwise]
  | curve p t kind input labels outputs =>
      obtain ⟨hinput, houtputs⟩ := List.forall_mem_cons.1 h
      simp only [mapChildren, toJson, toItems_eq_map, hinput, map_view outputs houtputs]
  | letIn p names values body =>
      obtain ⟨hvalues, hbody⟩ := List.forall_mem_append.1 h
      simp only [mapChildren, toJson, toItems_eq_map, map_view values hvalues,
        List.forall_mem_singleton.1 hbody]
  | var p t name => rfl
  | assertion p t inputs => simp only [mapChildren, toJson, toItems_eq_map, map_view inputs h]
  | call p t fn args => simp only [mapChildren, toJson, toItems_eq_map, map_view args h]

theorem compositional_eval (scene : Scene) : Compositional (eval scene) := by
  intro f e h
  cases e with
  | literal p t v => rfl
  | coalesce p t args =>
      simp only [mapChildren, eval, evalEach_eq_map, map_view args h, List.length_map]
  | select p t inputTy input table labels outputs otherwise =>
      obtain ⟨hinput, h⟩ := List.forall_mem_cons.1 h
      obtain ⟨houtputs, hotherwise⟩ := List.forall_mem_append.1 h
      simp only [mapChildren, eval, evalEach_eq_map, hinput, map_view outputs houtputs,
        List.forall_mem_singleton.1 hotherwise]
  | curve p t kind input labels outputs =>
      obtain ⟨hinput, houtputs⟩ := List.forall_mem_cons.1 h
      simp only [mapChildren, eval, evalEach_eq_map, hinput, map_view outputs houtputs]
  | letIn p names values body =>
      obtain ⟨hvalues, hbody⟩ := List.forall_mem_append.1 h
      simp only [mapChildren, eval, evalEach_eq_map, map_view values hvalues,
        List.forall_mem_singleton.1 hbody]
  | var p t name => rfl
  | assertion p t inputs =>
      simp only [mapChildren, eval, evalEach_eq_map, map_view inputs h, List.length_map]
  | call p t fn args =>
      simp only [mapChildren, eval, evalEach_eq_map, map_view args h, List.length_map]

/-- What is made of a tree node by node is made of it in parts. -/
theorem compositional_mapNodes (f : Expr → Expr) : Compositional (mapNodes f) := by
  intro g e h
  have hparts : e.mapChildren (mapNodes f ∘ g) = e.mapChildren (mapNodes f) := mapChildren_congr h
  -- so `f` is applied to one and the same node on both sides
  rw [mapNodes_eq, mapNodes_eq f e, mapChildren_mapChildren, hparts]

theorem all_nodesOf_map {p : Expr → Bool} {f : Expr → Expr} {es : List Expr}
    (h : ∀ e ∈ es, (f e).nodes.all p = e.nodes.all p) :
    (nodesOf (es.map f)).all p = (nodesOf es).all p := by
  induction es with
  | nil => rfl
  | cons e es ih =>
      obtain ⟨he, hes⟩ := List.forall_mem_cons.1 h
      rw [List.map_cons, nodesOf, nodesOf, List.all_append, List.all_append, he, ih hes]

/-- Whether all nodes have a property that children play no part in. -/
theorem compositional_all {p : Expr → Bool} (hp : ∀ f e, p (mapChildren f e) = p e) :
    Compositional fun e => e.nodes.all p := by
  intro f e h
  simp only [nodes_eq (mapChildren f e), nodes_eq e, List.all_cons, hp, children_mapChildren,
    all_nodesOf_map h]

theorem compositional_isFeatureConstant : Compositional isFeatureConstant :=
  compositional_all fun f e => by cases e <;> simp [mapChildren, readsFeature]

theorem compositional_isZoomConstant : Compositional isZoomConstant :=
  compositional_all fun f e => by cases e <;> rfl

/-! ## Trees without paths -/

def withPath (q : Path) : Expr → Expr
  | .literal _ t v => .literal q t v
  | .coalesce _ t args => .coalesce q t args
  | .select _ t inputTy input table labels outputs otherwise =>
    .select q t inputTy input table labels outputs otherwise
  | .curve _ t kind input labels outputs => .curve q t kind input labels outputs
  | .letIn _ names values body => .letIn q names values body
  | .var _ t name => .var q t name
  | .assertion _ t inputs => .assertion q t inputs
  | .call _ t fn args => .call q t fn args

section

variable (q : Path) (e : Expr)

theorem path_withPath : (e.withPath q).path = q := by cases e <;> rfl

theorem ty_withPath : (e.withPath q).ty = e.ty := by cases e <;> rfl

theorem toJson_withPath : (e.withPath q).toJson = e.toJson := by cases e <;> rfl

theorem eval_withPath (scene : Scene) : eval scene (e.withPath q) = eval scene e := by
  cases e <;> rfl

theorem isFeatureConstant_withPath : (e.withPath q).isFeatureConstant = e.isFeatureConstant := by
  cases e <;> rfl

theorem isZoomConstant_withPath : (e.withPath q).isZoomConstant = e.isZoomConstant := by
  cases e <;> rfl

end

/-- A tree without the paths of its nodes. -/
def unplaced (e : Expr) : Expr := e.mapNodes (withPath [])

theorem unplaced_eq (e : Expr) : e.unplaced = (e.mapChildren unplaced).withPath [] :=
  mapNodes_eq _ e

theorem unplaced_withPath (q : Path) (e : Expr) : (e.withPath q).unplaced = e.unplaced := by
  cases e <;> rfl

theorem ty_unplaced (e : Expr) : e.unplaced.ty = e.ty :=
  compositional_ty.mapNodes (ty_withPath []) e

theorem toJson_unplaced (e : Expr) : e.unplaced.toJson = e.toJson :=
  compositional_toJson.mapNodes (toJson_withPath []) e

/-- Evaluation does not look at paths. -/
theorem eval_unplaced (scene : Scene) (e : Expr) : eval scene e.unplaced = eval scene e :=
  (compositional_eval scene).mapNodes (fun e => eval_withPath [] e scene) e

end MapStyle.Expr
