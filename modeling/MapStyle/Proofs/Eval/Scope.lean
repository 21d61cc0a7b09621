/-
# `MapStyle.Proofs.Eval.Scope` — the scope after an evaluation

An evaluation leaves the stack of names as it found it, whatever it comes to.  This needs no check
of the tree: a body runs on a longer stack, and what it leaves is cut back to the former height.
-/
import MapStyle.Proofs.Expr.Trees

namespace MapStyle

/-- An evaluation leaves the scope as it found it. -/
def Evaluation.Keeps {α : Type} (p : Evaluation α) : Prop := ∀ st, (p st).2.scope = st.scope

theorem Rule.keeps_run {α : Type} {operands : List (Evaluation Value)}
    (h : ∀ p ∈ operands, p.Keeps) (rule : Rule α) : (rule.run operands).Keeps := by
  intro st
  induction rule generalizing st with
  | done r => rfl
  | ask i next ih =>
      rw [run]
      split
      · rename_i p hp
        rw [ih, h p (List.mem_of_getElem? hp)]
      · rfl
  | ease p next ih =>
      rw [run]
      rw [ih]

namespace Expr

theorem keeps_evalInOrder {ps : List (Evaluation Value)} (h : ∀ p ∈ ps, p.Keeps) :
    Evaluation.Keeps (evalInOrder ps) := by
  intro st
  induction ps generalizing st with
  | nil => rfl
  | cons p ps ih =>
      obtain ⟨hp, hps⟩ := List.forall_mem_cons.1 h
      have hfirst := hp st
      rw [evalInOrder]
      split
      · rename_i heq
        rw [heq] at hfirst
        exact hfirst
      · rename_i mid heq
        rw [heq] at hfirst
        have hrest := ih hps mid
        split
        · rename_i heq'
          rw [heq'] at hrest
          exact hrest.trans hfirst
        · rename_i heq'
          rw [heq'] at hrest
          exact hrest.trans hfirst

theorem keeps_inScope {names : List String} {values : List Value} {body : Evaluation Value}
    (h : body.Keeps) : (inScope names values body).Keeps := by
  intro st
  simp only [inScope, h _, bindNames]
  rw [List.length_append, Nat.add_sub_cancel]
  exact List.drop_left

theorem keeps_evalEach {scene : Scene} {es : List Expr} (h : ∀ e ∈ es, (eval scene e).Keeps) :
    ∀ p ∈ evalEach scene es, p.Keeps := by
  rw [evalEach_eq_map]
  intro p hp
  obtain ⟨e, he, rfl⟩ := List.mem_map.1 hp
  exact h e he

/-- Evaluation leaves the scope as it found it. -/
theorem keeps_eval (scene : Scene) (e : Expr) : (eval scene e).Keeps := by
  induction e using tree_induction with
  | literal p t v => exact fun _ => rfl
  | coalesce p t args ih => exact Rule.keeps_run (keeps_evalEach ih) _
  | select p t inputTy input table labels outputs otherwise ihinput ihoutputs ihotherwise =>
      exact Rule.keeps_run (List.forall_mem_cons.2
        ⟨ihinput, List.forall_mem_cons.2 ⟨ihotherwise, keeps_evalEach ihoutputs⟩⟩) _
  | curve p t kind input labels outputs ihinput ihoutputs =>
      exact Rule.keeps_run (List.forall_mem_cons.2 ⟨ihinput, keeps_evalEach ihoutputs⟩) _
  | letIn p names values body ihvalues ihbody =>
      intro st
      have hvalues := keeps_evalInOrder (keeps_evalEach ihvalues) st
      simp only [eval]
      split
      · rename_i heq
        rw [heq] at hvalues
        exact hvalues
      · rename_i mid heq
        rw [heq] at hvalues
        exact (keeps_inScope ihbody mid).trans hvalues
  | var p t name => exact fun _ => rfl
  | assertion p t inputs ih => exact Rule.keeps_run (keeps_evalEach ih) _
  | call p t fn args ih => exact Rule.keeps_run (keeps_evalEach ih) _

end Expr
end MapStyle
