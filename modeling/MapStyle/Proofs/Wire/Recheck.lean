/-
# `MapStyle.Proofs.Wire.Recheck` — checking the wire form of a formed tree

The two facts of `Rechecks`, one case for each kind of node, and by induction for every tree
(`rechecks`).
-/
import MapStyle.Proofs.Wire.Parts

namespace MapStyle

open Reporting Typing

variable {interpolators : Interpolators}

/-! ## Literals and names -/

theorem rewiredLiteral_ofJson (t : Ty) (j : Json) :
    Expr.rewiredLiteral t (Value.ofJson j) = .literal [] t (Value.ofJson j).unsigned := by
  cases j <;> rfl

theorem elaborates_color {ctx : Context} {c : Color} (hc : c.isValid = true)
    (hexp : ctx.expected = some .color) :
    ∃ d, Elaborates ctx (Expr.literalJson (.color c)) d ∧
      d.unplaced = Expr.rewiredLiteral .color (.color c) := by
  let signature : Signature := .exactly [.number, .number, .number, .number]
  have hparam : ∀ k, 0 ≤ k → k < 0 + c.wire.length → some (signature.param k) = some .number := by
    intro k _ hk
    match k, hk with
    | 0, _ => rfl
    | 1, _ => rfl
    | 2, _ => rfl
    | 3, _ => rfl
  obtain ⟨ds, hds, hall⟩ : ∃ ds, Each ctx (fun i => some (signature.param i)) 0
      (c.wire.map Json.ofFloat) ds ∧ ds.map Expr.unplaced =
        c.wire.map fun x => .literal [] .number (.number (unsigned x)) :=
    each_numbers (Color.isFinite_wire hc) hparam
  have hfirst : FirstSignature ctx (c.wire.map Json.ofFloat) Builtin.rgba.signatures signature ds :=
    ⟨[], [], rfl, by simp, rfl, hds⟩
  refine ⟨_, (elaborates_named (form?_name .rgba)).2 ⟨_, clean_call.2 ⟨_, ds, hfirst, rfl⟩,
    .kept (hexp ▸ admits_self .color)⟩, ?_⟩
  rw [callOf, Expr.unplaced_eq, Expr.mapChildren, hall]
  rfl

theorem rechecks_literal (p : Path) (t : Ty) (v : Value) :
    Rechecks interpolators (.literal p t v) where
  again := by
    rintro ctx - ⟨hty, hlit, hvalue⟩ -
    rcases hvalue with ⟨j, rfl⟩ | ⟨c, rfl, hvalid, hexp⟩
    · refine ⟨_, elaborates_literalJson j (hlit ▸ hty), ?_⟩
      rw [Expr.rewired_eq, Expr.mapChildren, Expr.rewiredNode, rewiredLiteral_ofJson, ← hlit]
      rfl
    · rw [hexp] at hlit
      subst hlit
      exact elaborates_color hvalid hexp
  refits := by
    rintro ctx wanted d - hwanted hexp ⟨hty, hlit, hvalue⟩ hd
    rcases hvalue with ⟨j, rfl⟩ | ⟨c, _, _, h⟩
    · -- of the types of values, only those of null and of texts are right for a text
      cases j with
      | null => exact hlit
      | str s =>
          obtain ⟨d', hclean, hconf⟩ := (elaborates_scalar (j := .str s) trivial).1 hd
          rw [hexp] at hconf
          refine eq_null_of_conforms hwanted hty hconf ?_
          rcases clean_scalar.1 hclean with ⟨_, _, _, hcolor, _⟩ | ⟨_, hclean⟩
          · rw [hexp] at hcolor
            exact absurd (Option.some.inj hcolor) (Ty.ne_color_of_refusesText hwanted)
          · obtain ⟨_, rfl⟩ := clean_literalOf.1 hclean
            exact hlit.symm
      | _ =>
          have hne : ∀ item length, Ty.string ≠ .array item length := by
            intro _ _ h
            cases h
          rw [literalTy_of_ne hne] at hlit
          subst hlit
          rcases eq_of_admits_string hty with h | h <;> cases h
    · cases h

theorem rechecks_var (p : Path) (t : Ty) (name : String) :
    Rechecks interpolators (.var p t name) where
  again := by
    rintro ctx - ⟨hty, hlookup⟩ -
    exact ⟨_, (elaborates_named rfl).2
      ⟨_, clean_var.2 ⟨name, t, rfl, hlookup, rfl⟩, .kept hty⟩, rfl⟩
  refits := by
    rintro ctx wanted d - hwanted hexp ⟨hty, hlookup⟩ hd
    obtain ⟨_, hclean, hconf⟩ := (elaborates_named rfl).1 hd
    obtain ⟨_, _, heq, hlookup', rfl⟩ := clean_var.1 hclean
    cases heq
    rw [hexp] at hconf
    exact eq_null_of_conforms hwanted hty hconf (Option.some.inj (hlookup'.symm.trans hlookup))

/-! ## Outputs -/

theorem length_toItems (es : List Expr) : (Expr.toItems es).length = es.length := by
  rw [Expr.toItems_eq_map, List.length_map]

theorem rechecks_coalesce (p : Path) (t : Ty) (args : List Expr)
    (ih : ∀ a ∈ args, Rechecks interpolators a) :
    Rechecks interpolators (.coalesce p t args) where
  again := by
    intro ctx hctx hformed hwritable
    have hty := hformed.admits
    obtain ⟨hargs, rfl⟩ := hformed
    rw [Expr.isWritable_coalesce] at hwritable
    obtain ⟨ds, hsteps, hall⟩ := outputs_again ih hctx hargs hwritable
    refine ⟨_, (elaborates_named rfl).2 ⟨_, clean_coalesce.2 ⟨_, ds, hsteps, rfl⟩, .kept hty⟩, ?_⟩
    rw [Expr.unplaced_eq, Expr.rewired_eq, Expr.mapChildren, Expr.mapChildren, hall]
    rfl
  refits := by
    rintro ctx wanted d hctx hwanted hexp ⟨hargs, _⟩ hd
    obtain ⟨_, hclean, _⟩ := (elaborates_named rfl).1 hd
    obtain ⟨_, _, hsteps, _⟩ := clean_coalesce.1 hclean
    rw [hexp] at hsteps
    exact refitsAll_of_reads hwanted ih hctx hargs (readsAs_of_outputs hsteps)

/-! ## Branches and stops -/

theorem rechecks_select (p : Path) (t inputTy : Ty) (input : Expr) (table : Dict Nat)
    (labels : List (List Label)) (outputs : List Expr) (otherwise : Expr)
    (ihinput : Rechecks interpolators input) (ihoutputs : ∀ a ∈ outputs, Rechecks interpolators a)
    (ihotherwise : Rechecks interpolators otherwise) :
    Rechecks interpolators (.select p t inputTy input table labels outputs otherwise) where
  again := by
    intro ctx hctx hformed hwritable
    have hty := hformed.admits
    obtain ⟨hinput, houtputs, hotherwise, rfl, hlen, hne, htakes, hseen⟩ := hformed
    obtain ⟨hwinput, hwoutputs, hwotherwise⟩ := Expr.isWritable_select.1 hwritable
    have hcount : (labels.map Expr.labelsJson).length = (Expr.toItems outputs).length := by
      rw [List.length_map, length_toItems, hlen]
    have hpairs := inPairs_interleave [otherwise.toJson] hcount
    rw [← Expr.branchJson_eq, inPairs, List.append_nil] at hpairs
    obtain ⟨checked, hsteps, hlabels, hall⟩ :=
      branches_again (k := 0) ihoutputs hctx hlen houtputs htakes hwoutputs
    rw [hseen] at hsteps
    obtain ⟨d, hd, hdinput⟩ :=
      ihinput.again (ctx.child 1 (some inputTy)) hctx hinput hwinput
    obtain ⟨o, ho, hdother⟩ := ihotherwise.again (ctx.child _ _) hctx hotherwise hwotherwise
    have hfour : 4 ≤ (input.toJson :: (Expr.branchJson labels (Expr.toItems outputs) ++
        [otherwise.toJson])).length := by
      have hpos := List.length_pos_iff.2 hne
      rw [List.length_cons, List.length_append, Expr.branchJson_eq, length_interleave hcount,
        List.length_map, List.length_singleton]
      omega
    refine ⟨_, (elaborates_named rfl).2 ⟨_, clean_select.2 ⟨hfour, _, _, _, _, rfl, hpairs, _,
      checked, d, o, inputTy, hsteps, rfl, hd, ho, rfl⟩, .kept ?_⟩, ?_⟩
    · rw [Expr.ty, ty_of_unplaced hdother]
      exact hty
    · rw [Expr.unplaced_eq, Expr.rewired_eq, Expr.mapChildren, Expr.mapChildren, hdinput, hall,
        hdother, hlabels, ty_of_unplaced hdother]
      rfl
  refits := by
    rintro ctx wanted d hctx hwanted hexp ⟨_, houtputs, hotherwise, _, hlen, _⟩ hd
    rw [learnAll_some] at hotherwise
    obtain ⟨_, hclean, _⟩ := (elaborates_named rfl).1 hd
    obtain ⟨_, _, _, _, _, heq, hpairs, _, _, _, _, _, hsteps, _, _, ho, _⟩ :=
      clean_select.1 hclean
    cases heq
    have hcount : (labels.map Expr.labelsJson).length = (Expr.toItems outputs).length := by
      rw [List.length_map, length_toItems, hlen]
    rw [Expr.branchJson_eq, inPairs_interleave _ hcount, inPairs, List.append_nil] at hpairs
    cases hpairs
    rw [hexp] at hsteps
    obtain ⟨hshared, hreads⟩ := readsAs_of_branches hsteps
    rw [hshared] at ho
    exact ⟨refitsAll_of_reads hwanted ihoutputs hctx houtputs (forall_snd_zip hcount hreads),
      ihotherwise.refits (ctx.child _ (some wanted)) wanted _ hctx hwanted rfl hotherwise ho⟩

theorem rechecks_curve (p : Path) (t : Ty) (kind : Interpolation) (input : Expr)
    (labels : List Float) (outputs : List Expr) (ihinput : Rechecks interpolators input)
    (ihoutputs : ∀ a ∈ outputs, Rechecks interpolators a) :
    Rechecks interpolators (.curve p t kind input labels outputs) where
  again := by
    intro ctx hctx hformed hwritable
    have hty := hformed.admits
    obtain ⟨hinput, houtputs, rfl, hlen, hne, hfollow, hkind, hblend⟩ := hformed
    obtain ⟨hwinput, hwoutputs⟩ := Expr.isWritable_curve.1 hwritable
    have hcount : (labels.map Json.ofFloat).length = (Expr.toItems outputs).length := by
      rw [List.length_map, length_toItems, hlen]
    have hpairs := inPairs_interleave [] hcount
    rw [← Expr.stopJson_eq, inPairs, List.append_nil, List.append_nil] at hpairs
    obtain ⟨last, checked, hsteps, hlabels, hall⟩ :=
      stops_again (k := 0) ihoutputs hctx hlen houtputs hfollow hwoutputs
    obtain ⟨d, hd, hdinput⟩ :=
      ihinput.again (ctx.child 2 (some .number)) hctx hinput hwinput
    have hfour : 4 ≤ (kind.toJson :: input.toJson ::
        Expr.stopJson labels (Expr.toItems outputs)).length := by
      have hpos := List.length_pos_iff.2 hne
      rw [List.length_cons, List.length_cons, Expr.stopJson_eq, length_interleave hcount,
        List.length_map]
      omega
    rw [← hctx, ← kind.isStep_unsigned] at hblend
    refine ⟨_, (elaborates_named rfl).2 ⟨_, clean_curve.2 ⟨hfour, _, _, _, _, rfl, hpairs, _, d, _,
      checked, describes_toJson hkind, hd, hsteps, hblend, rfl⟩, .kept hty⟩, ?_⟩
    rw [Expr.unplaced_eq, Expr.rewired_eq, Expr.mapChildren, Expr.mapChildren, hdinput, hall,
      hlabels]
    rfl
  refits := by
    rintro ctx wanted d hctx hwanted hexp ⟨_, houtputs, _, hlen, _, _, hkind, _⟩ hd
    obtain ⟨_, hclean, _⟩ := (elaborates_named rfl).1 hd
    obtain ⟨_, _, _, _, _, heq, hpairs, kind', _, _, _, hdescribes, _, hsteps, hblend, _⟩ :=
      clean_curve.1 hclean
    cases heq
    have hcount : (labels.map Json.ofFloat).length = (Expr.toItems outputs).length := by
      rw [List.length_map, length_toItems, hlen]
    have hwritten := inPairs_interleave [] hcount
    rw [← Expr.stopJson_eq, inPairs, List.append_nil, List.append_nil, hpairs] at hwritten
    cases hwritten
    rw [hexp] at hsteps
    obtain ⟨hshared, hreads⟩ := readsAs_of_stops hsteps
    have hkind' : kind' = kind.unsigned := hdescribes.unique (describes_toJson hkind)
    rw [hshared, hkind', kind.isStep_unsigned, hctx] at hblend
    exact ⟨refitsAll_of_reads hwanted ihoutputs hctx houtputs (forall_snd_zip hcount hreads),
      hblend⟩

/-! ## Bodies -/

theorem bindTypes_congr {names : List String} {ds es : List Expr} (scope : List (String × Ty))
    (h : ds.map Expr.ty = es.map Expr.ty) :
    bindTypes names ds scope = bindTypes names es scope := by
  rw [bindTypes, bindTypes, h]

theorem rechecks_letIn (p : Path) (names : List String) (values : List Expr) (body : Expr)
    (ihvalues : ∀ a ∈ values, Rechecks interpolators a) (ihbody : Rechecks interpolators body) :
    Rechecks interpolators (.letIn p names values body) where
  again := by
    intro ctx hctx hformed hwritable
    have hty := hformed.admits
    obtain ⟨hvalues, hbody, hlen, hne, hnames⟩ := hformed
    obtain ⟨hwvalues, hwbody⟩ := Expr.isWritable_letIn.1 hwritable
    have hcount : (names.map Json.str).length = (Expr.toItems values).length := by
      rw [List.length_map, length_toItems, hlen]
    have hpairs := inPairs_interleave [body.toJson] hcount
    rw [← Expr.bindingJson_eq, inPairs, List.append_nil] at hpairs
    obtain ⟨bound, hsteps, hfst, hall⟩ :=
      bindings_again (k := 0) ihvalues hctx hlen hnames hvalues hwvalues
    have hscope := bindTypes_bound bound ctx.scope
    rw [hfst, bindTypes_congr _ (types_of_unplaced hall)] at hscope
    rw [hscope] at hbody
    obtain ⟨d, hd, hdbody⟩ := ihbody.again
      (ctx.childWith (Expr.bindingJson names (Expr.toItems values) ++ [body.toJson]).length _)
      hctx hbody hwbody
    have hthree : 3 ≤ (Expr.bindingJson names (Expr.toItems values) ++ [body.toJson]).length := by
      have hpos := List.length_pos_iff.2 hne
      rw [List.length_append, Expr.bindingJson_eq, length_interleave hcount, List.length_map,
        List.length_singleton]
      omega
    refine ⟨_, (elaborates_named rfl).2 ⟨_, clean_letIn.2 ⟨hthree, _, _, hpairs, bound, d, hsteps,
      hd, rfl⟩, .kept ?_⟩, ?_⟩
    · rw [Expr.ty, ty_of_unplaced hdbody]
      exact hty
    · rw [Expr.unplaced_eq, Expr.rewired_eq, Expr.mapChildren, Expr.mapChildren, hfst, hall, hdbody]
      rfl
  refits := by
    rintro ctx wanted d hctx hwanted hexp ⟨hvalues, hbody, hlen, _⟩ hd
    obtain ⟨_, hclean, _⟩ := (elaborates_named rfl).1 hd
    obtain ⟨_, _, _, hpairs, bound, _, hsteps, hd, _⟩ := clean_letIn.1 hclean
    have hcount : (names.map Json.str).length = (Expr.toItems values).length := by
      rw [List.length_map, length_toItems, hlen]
    rw [Expr.bindingJson_eq, inPairs_interleave _ hcount, inPairs, List.append_nil] at hpairs
    cases hpairs
    obtain ⟨hfst, htypes⟩ := types_of_bindings ihvalues hctx hlen hvalues hsteps
    have hscope := bindTypes_bound bound ctx.scope
    rw [hfst, bindTypes_congr _ htypes] at hscope
    rw [hscope] at hbody
    exact ihbody.refits (ctx.childWith _ _) wanted _ hctx hwanted hexp hbody hd

/-! ## Assertions -/

theorem elaborates_assertion {ctx : Context} {t : Ty} {inputs : List Expr}
    (ih : ∀ a ∈ inputs, Rechecks interpolators a) (hctx : ctx.interpolators = interpolators)
    (hassertable : Assertable t inputs.length)
    (hinputs : Expr.FormedArgs interpolators inputs ctx.scope (fun _ => some .value) 0)
    (hty : Admits ctx.expected t) (hwritten : t.hasSyntax = true)
    (hwritable : Expr.areWritable inputs = true) :
    ∃ ds, Elaborates ctx (Expr.assertionJson t (Expr.toItems inputs)) (.assertion ctx.path t ds) ∧
      ds.map Expr.unplaced = inputs.map Expr.rewired := by
  rcases array_or_not t with ⟨item, len, rfl⟩ | harray
  · obtain ⟨input, rfl⟩ := List.length_eq_one_iff.1 (hassertable.2.2.2.2 item len rfl)
    have hwritable : input.isWritable = true := by
      rwa [Expr.areWritable, List.all_cons, List.all_nil, Bool.and_true] at hwritable
    have hparts := arrayParts?_written item len input.toJson
    rw [if_pos hwritten] at hparts
    obtain ⟨d, hd, hunplaced⟩ := (ih input List.mem_cons_self).again
      (ctx.child (Expr.arrayParameters item len ++ [input.toJson]).length (some .value)) hctx
      hinputs.1 hwritable
    refine ⟨[d], (elaborates_named rfl).2 ⟨_, clean_arrayAssertion.2 ⟨item, len, _, hparts, d, hd,
      rfl⟩, .kept hty⟩, ?_⟩
    exact congrArg (· :: []) hunplaced
  · rw [assertionJson_of_ne harray]
    obtain ⟨ds, heach, hall⟩ := each_again ih hctx hinputs hwritable
    have hne : Expr.toItems inputs ≠ [] := by
      intro h
      have hlen := length_toItems inputs
      rw [h] at hlen
      exact absurd hassertable.2.2.2.1 (by simp [← hlen])
    exact ⟨ds, (elaborates_named (form?_kindJson hassertable harray)).2
      ⟨_, clean_assertion.2 ⟨hne, ds, heach, rfl⟩, .kept hty⟩, hall⟩

theorem rechecks_assertion (p : Path) (t : Ty) (inputs : List Expr)
    (ih : ∀ a ∈ inputs, Rechecks interpolators a) :
    Rechecks interpolators (.assertion p t inputs) where
  again := by
    rintro ctx hctx ⟨hty, hassertable, hinputs⟩ hwritable
    obtain ⟨hwritten, hwritable⟩ := Expr.isWritable_assertion.1 hwritable
    obtain ⟨ds, hds, hall⟩ :=
      elaborates_assertion ih hctx hassertable hinputs hty hwritten hwritable
    refine ⟨_, hds, ?_⟩
    rw [Expr.unplaced_eq, Expr.rewired_eq, Expr.mapChildren, Expr.mapChildren, hall]
    rfl
  refits := by
    rintro ctx wanted d hctx hwanted hexp ⟨hty, hassertable, hinputs⟩ hd
    rcases eq_of_admits_string hty with rfl | rfl
    · rfl
    · obtain ⟨_, hclean, hconf⟩ := (elaborates_named rfl).1 hd
      obtain ⟨_, _, _, rfl⟩ := clean_assertion.1 hclean
      rw [hexp] at hconf
      exact eq_null_of_conforms hwanted hty hconf rfl

/-! ## Calls -/

/-- Only the type of an array item depends on the types of the arguments. -/
theorem result_eq {fn : Builtin} (h : fn ≠ .item) (ts us : List Ty) :
    fn.result ts = fn.result us := by
  cases fn with
  | item => exact absurd rfl h
  | _ => rfl

theorem rechecks_call (p : Path) (t : Ty) (fn : Builtin) (args : List Expr)
    (ih : ∀ a ∈ args, Rechecks interpolators a) :
    Rechecks interpolators (.call p t fn args) where
  again := by
    rintro ctx hctx ⟨hty, rfl, earlier, signature, later, hsplit, htakes, hargs, hrefits⟩ hwritable
    rw [Expr.isWritable_call] at hwritable
    obtain ⟨ds, heach, hall⟩ := each_again ih hctx hargs hwritable
    have hearlier : ∀ s ∈ earlier, ¬ FitsSignature ctx (Expr.toItems args) s := by
      rintro s hs ⟨hs', es, hes⟩
      rw [length_toItems] at hs'
      have hparam := param_of_overlap hsplit hs hs' htakes
      exact hrefits s hs hs'
        (refitsFrom_of_each ih hctx (fun k _ hk => hparam k (by omega)) hargs hes)
    rw [← length_toItems] at htakes
    have hfirst : FirstSignature ctx (Expr.toItems args) fn.signatures signature ds :=
      ⟨earlier, later, hsplit, hearlier, htakes, heach⟩
    rw [← types_of_unplaced hall] at hty ⊢
    refine ⟨_, (elaborates_named (form?_name fn)).2 ⟨_, clean_call.2 ⟨signature, ds, hfirst, rfl⟩,
      .kept hty⟩, ?_⟩
    rw [callOf, Expr.unplaced_eq, Expr.rewired_eq, Expr.mapChildren, Expr.mapChildren, hall]
    rfl
  refits := by
    rintro ctx wanted d hctx hwanted hexp ⟨hty, rfl, _, signature, _, hsplit, _, hargs, _⟩ hd
    obtain ⟨_, hclean, hconf⟩ := (elaborates_named (form?_name fn)).1 hd
    obtain ⟨signature', ds, ⟨_, _, hsplit', _, _, heach⟩, rfl⟩ := clean_call.1 hclean
    rw [hexp] at hconf
    refine eq_null_of_conforms hwanted hty hconf ?_
    by_cases hfn : fn = .item
    · subst hfn
      obtain rfl : signature = signature' :=
        (eq_of_split_single hsplit).trans (eq_of_split_single hsplit').symm
      have htypes := types_of_each ih hctx hargs heach
      exact congrArg (fun ts => Builtin.item.result ts) htypes
    · exact result_eq hfn _ _

/-- Checking the wire form of a formed tree, for every tree. -/
theorem rechecks (e : Expr) : Rechecks interpolators e := by
  induction e using Expr.tree_induction with
  | literal p t v => exact rechecks_literal p t v
  | coalesce p t args ih => exact rechecks_coalesce p t args ih
  | select p t inputTy input table labels outputs otherwise ihinput ihoutputs ihotherwise =>
      exact rechecks_select p t inputTy input table labels outputs otherwise ihinput ihoutputs
        ihotherwise
  | curve p t kind input labels outputs ihinput ihoutputs =>
      exact rechecks_curve p t kind input labels outputs ihinput ihoutputs
  | letIn p names values body ihvalues ihbody =>
      exact rechecks_letIn p names values body ihvalues ihbody
  | var p t name => exact rechecks_var p t name
  | assertion p t inputs ih => exact rechecks_assertion p t inputs ih
  | call p t fn args ih => exact rechecks_call p t fn args ih

end MapStyle
