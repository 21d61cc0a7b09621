/-
# `MapStyle.Proofs.Wire.Rewiring` — what a tree becomes on the wire and back

Writing a tree and checking what was written does not give the same tree.  `Expr.rewired` says what
it gives: the tree without the paths of its nodes, in which every color literal has become a call of
`rgba` with its four wire channels and every zero has lost its sign.

* `Expr.ty_rewired`, `Expr.toJson_rewired`: type and wire form are kept.
* `Expr.isFeatureConstant_of_unplaced`, `Expr.isZoomConstant_of_unplaced`: so is what the tree does
  not look at.
* `Expr.rewired_of_plain`: a tree without color literals and negative zeros only loses its paths.
-/
import MapStyle.Proofs.Expr.Trees
import MapStyle.Proofs.Wire.Data

namespace MapStyle.Expr

/-! ## Rewired trees -/

/-- A literal as it comes back: a color as a call of `rgba`. -/
def rewiredLiteral (t : Ty) : Value → Expr
  | .color c =>
    .call [] t .rgba (c.wire.map fun x => .literal [] .number (.number (MapStyle.unsigned x)))
  | v => .literal [] t v.unsigned

/-- A node as it comes back when its children have. -/
def rewiredNode : Expr → Expr
  | .literal _ t v => rewiredLiteral t v
  | .select _ t inputTy input table labels outputs otherwise =>
    .select [] t inputTy input table (labels.map (·.map Label.unsigned)) outputs otherwise
  | .curve _ t kind input labels outputs =>
    .curve [] t kind.unsigned input (labels.map MapStyle.unsigned) outputs
  | e => e.withPath []

def rewired (e : Expr) : Expr := e.mapNodes rewiredNode

theorem rewired_eq (e : Expr) : e.rewired = rewiredNode (e.mapChildren rewired) :=
  mapNodes_eq _ e

theorem ty_rewiredNode (e : Expr) : (rewiredNode e).ty = e.ty := by
  cases e with
  | literal p t v => cases v <;> rfl
  | _ => rfl

theorem ty_rewired (e : Expr) : e.rewired.ty = e.ty := compositional_ty.mapNodes ty_rewiredNode e

/-! ## The wire form -/

theorem branchJson_unsigned (labels : List (List Label)) (outputs : List Json) :
    branchJson (labels.map (·.map Label.unsigned)) outputs = branchJson labels outputs := by
  have hlabels : ∀ ls : List Label,
      (ls.map Label.unsigned).map Label.toJson = ls.map Label.toJson := by
    intro ls
    rw [List.map_map]
    exact List.map_congr_left fun l _ => l.toJson_unsigned
  induction labels generalizing outputs with
  | nil => rfl
  | cons ls labels ih =>
      cases outputs with
      | nil => rfl
      | cons o outputs => rw [List.map_cons, branchJson, branchJson, hlabels, ih]

theorem stopJson_unsigned (labels : List Float) (outputs : List Json) :
    stopJson (labels.map MapStyle.unsigned) outputs = stopJson labels outputs := by
  induction labels generalizing outputs with
  | nil => rfl
  | cons x labels ih =>
      cases outputs with
      | nil => rfl
      | cons o outputs => rw [List.map_cons, stopJson, stopJson, ofFloat_unsigned, ih]

theorem toJson_rewiredLiteral (t : Ty) (v : Value) :
    (rewiredLiteral t v).toJson = literalJson v := by
  cases v with
  | color c =>
      simp only [rewiredLiteral, toJson, toItems_eq_map, List.map_map]
      refine congrArg (Json.call "rgba") (List.map_congr_left fun x _ => ?_)
      exact ofFloat_unsigned x
  | array items =>
      exact congrArg (fun j => Json.call "literal" [j]) (Value.toJson_unsigned (.array items))
  | object fields =>
      exact congrArg (fun j => Json.call "literal" [j]) (Value.toJson_unsigned (.object fields))
  | number x => exact ofFloat_unsigned x
  | _ => rfl

theorem toJson_rewiredNode (e : Expr) : (rewiredNode e).toJson = e.toJson := by
  cases e with
  | literal p t v => exact toJson_rewiredLiteral t v
  | select p t inputTy input table labels outputs otherwise =>
      simp only [rewiredNode, toJson, branchJson_unsigned]
  | curve p t kind input labels outputs =>
      simp only [rewiredNode, toJson, stopJson_unsigned, Interpolation.toJson_unsigned]
  | _ => rfl

theorem toJson_rewired (e : Expr) : e.rewired.toJson = e.toJson :=
  compositional_toJson.mapNodes toJson_rewiredNode e

/-! ## Constancy -/

theorem isFeatureConstant_rewiredNode (e : Expr) :
    (rewiredNode e).isFeatureConstant = e.isFeatureConstant := by
  cases e with
  | literal p t v => cases v <;> rfl
  | _ => rfl

theorem isZoomConstant_rewiredNode (e : Expr) :
    (rewiredNode e).isZoomConstant = e.isZoomConstant := by
  cases e with
  | literal p t v => cases v <;> rfl
  | _ => rfl

/-- Trees that differ from a rewired tree in paths alone are constant when it is. -/
theorem isFeatureConstant_of_unplaced {d e : Expr} (h : d.unplaced = e.rewired) :
    d.isFeatureConstant = e.isFeatureConstant := by
  have hunplaced : d.unplaced.isFeatureConstant = d.isFeatureConstant :=
    compositional_isFeatureConstant.mapNodes (isFeatureConstant_withPath []) d
  have hrewired : e.rewired.isFeatureConstant = e.isFeatureConstant :=
    compositional_isFeatureConstant.mapNodes isFeatureConstant_rewiredNode e
  rw [← hunplaced, ← hrewired, h]

theorem isZoomConstant_of_unplaced {d e : Expr} (h : d.unplaced = e.rewired) :
    d.isZoomConstant = e.isZoomConstant := by
  have hunplaced : d.unplaced.isZoomConstant = d.isZoomConstant :=
    compositional_isZoomConstant.mapNodes (isZoomConstant_withPath []) d
  have hrewired : e.rewired.isZoomConstant = e.isZoomConstant :=
    compositional_isZoomConstant.mapNodes isZoomConstant_rewiredNode e
  rw [← hunplaced, ← hrewired, h]

end MapStyle.Expr

/-! ## Plain trees -/

namespace MapStyle

theorem unsigned_of_ne_negativeZero {x : Float} (h : x ≠ negativeZero) : unsigned x = x := by
  rcases unsigned_cases x with hx | ⟨hx, _⟩
  · exact hx
  · exact absurd hx h

mutual

def Value.NoNegativeZero : Value → Prop
  | .number x => x ≠ negativeZero
  | .array items => noneNegativeZero items
  | .object fields => fieldsNoNegativeZero fields
  | _ => True

def Value.noneNegativeZero : List Value → Prop
  | [] => True
  | v :: vs => NoNegativeZero v ∧ noneNegativeZero vs

def Value.fieldsNoNegativeZero : List (String × Value) → Prop
  | [] => True
  | (_, v) :: rest => NoNegativeZero v ∧ fieldsNoNegativeZero rest

end

mutual

theorem Value.unsigned_eq : ∀ {v : Value}, v.NoNegativeZero → v.unsigned = v
  | .null, _ => rfl
  | .bool _, _ => rfl
  | .number _, h => congrArg number (unsigned_of_ne_negativeZero h)
  | .string _, _ => rfl
  | .color _, _ => rfl
  | .array _, h => congrArg array (unsignedItems_eq h)
  | .object _, h => congrArg object (unsignedFields_eq h)

theorem Value.unsignedItems_eq : ∀ {vs : List Value}, noneNegativeZero vs → unsignedItems vs = vs
  | [], _ => rfl
  | _ :: _, ⟨h, hs⟩ => by rw [unsignedItems, unsigned_eq h, unsignedItems_eq hs]

theorem Value.unsignedFields_eq : ∀ {fields : List (String × Value)},
    fieldsNoNegativeZero fields → unsignedFields fields = fields
  | [], _ => rfl
  | (_, _) :: _, ⟨h, hs⟩ => by rw [unsignedFields, unsigned_eq h, unsignedFields_eq hs]

end

def Label.NoNegativeZero : Label → Prop
  | .number x => x ≠ negativeZero
  | .string _ => True

theorem Label.unsigned_eq {l : Label} (h : l.NoNegativeZero) : l.unsigned = l := by
  cases l with
  | number x => exact congrArg number (unsigned_of_ne_negativeZero h)
  | string s => rfl

def Interpolation.NoNegativeZero (kind : Interpolation) : Prop :=
  ∀ x ∈ kind.parameters, x ≠ negativeZero

theorem Interpolation.unsigned_eq {kind : Interpolation} (h : kind.NoNegativeZero) :
    kind.unsigned = kind := by
  cases kind with
  | step => rfl
  | linear => rfl
  | exponential base =>
      exact congrArg exponential (unsigned_of_ne_negativeZero (h _ (by simp [parameters])))
  | cubicBezier p =>
      have hp : ∀ x ∈ p.toList, MapStyle.unsigned x = x := fun x hx =>
        unsigned_of_ne_negativeZero (h x hx)
      simp only [ControlPoints.toList, List.forall_mem_cons] at hp
      obtain ⟨hx1, hy1, hx2, hy2, _⟩ := hp
      simp only [unsigned, ControlPoints.unsigned, hx1, hy1, hx2, hy2]

namespace Expr

/-- A node is no color literal and carries no negative zero. -/
def PlainNode : Expr → Prop
  | .literal _ _ v => (∀ c, v ≠ .color c) ∧ v.NoNegativeZero
  | .select _ _ _ _ _ labels _ _ => ∀ ls ∈ labels, ∀ l ∈ ls, l.NoNegativeZero
  | .curve _ _ kind _ labels _ => kind.NoNegativeZero ∧ ∀ x ∈ labels, x ≠ negativeZero
  | _ => True

/-- No node of a tree is a color literal or carries a negative zero. -/
def Plain (e : Expr) : Prop := ∀ n ∈ e.nodes, n.PlainNode

theorem map_eq_self {α : Type} {f : α → α} {as : List α} (h : ∀ a ∈ as, f a = a) :
    as.map f = as := (List.map_congr_left h).trans (List.map_id as)

theorem rewiredNode_of_plain {e : Expr} (h : e.PlainNode) : rewiredNode e = e.withPath [] := by
  cases e with
  | literal p t v =>
      obtain ⟨hcolor, hzero⟩ := h
      have hsame := congrArg (Expr.literal [] t) (Value.unsigned_eq hzero)
      cases v with
      | color c => exact absurd rfl (hcolor c)
      | _ => exact hsame
  | select p t inputTy input table labels outputs otherwise =>
      have hsame : labels.map (·.map Label.unsigned) = labels :=
        map_eq_self fun ls hls => map_eq_self fun l hl => Label.unsigned_eq (h ls hls l hl)
      rw [rewiredNode, withPath, hsame]
  | curve p t kind input labels outputs =>
      obtain ⟨hkind, hlabels⟩ := h
      have hsame : labels.map MapStyle.unsigned = labels :=
        map_eq_self fun x hx => unsigned_of_ne_negativeZero (hlabels x hx)
      rw [rewiredNode, withPath, hsame, Interpolation.unsigned_eq hkind]
  | _ => rfl

theorem plainNode_mapChildren {f : Expr → Expr} {e : Expr} (h : e.PlainNode) :
    (e.mapChildren f).PlainNode := by
  cases e <;> exact h

/-- A tree without color literals and negative zeros comes back as it was. -/
theorem rewired_of_plain (e : Expr) (h : e.Plain) : e.rewired = e.unplaced := by
  induction e using children_induction with
  | node e ih =>
      have hchildren : e.mapChildren rewired = e.mapChildren unplaced :=
        mapChildren_congr fun d hd => ih d hd fun n hn => h n (mem_nodes_of_child hd hn)
      rw [rewired_eq, unplaced_eq, hchildren]
      exact rewiredNode_of_plain (plainNode_mapChildren (h e (mem_nodes_self e)))

end Expr
end MapStyle
