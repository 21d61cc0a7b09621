/-
# `MapStyle.Proofs.Style.Groups` — stops of both zoom and value, grouped by their zoom

Conversion gathers the stops of both zoom and value in one pass: a stop goes to the group of its
zoom, or begins a new one behind the others.  What comes out is said of all stops at once in
`Conversion.Grouped`, however the zooms are interleaved and however equal ones are written: one group
for each zoom, in the order in which the zooms first occur, with the stops at the zoom in the order
in which they stand (`Conversion.ofZoomAndProperty_groups`).

Each part is an invariant of the pass: a lemma on `addToGroup` says what one stop does to it, and an
induction on the stops carries it along.  Zooms are numbers of a document and so never NaN; without
that a group could not be found again.
-/
import MapStyle.Proofs.Style.Reading

namespace MapStyle

/-- The values of stops of both zoom and value, as inputs of their outputs. -/
def StopFunction.withoutZooms (stops : List (Json × Json)) : List (Json × Json) :=
  stops.filterMap fun stop => (Conversion.zoomAndValue? stop.1).map fun (_, v) => (v, stop.2)

namespace Conversion

open StopFunction

variable {z : Float} {v input : Json} {stop : Json × Json} {stops : List (Json × Json)}
  {done gs : List (Float × List (Json × Json))}

/-! ## Inputs -/

/-- The input of a stop has a number as its zoom, and a value. -/
def HasZoomAndValue (input : Json) : Prop :=
  (∃ z, (input.get? "zoom").bind Json.num? = some z) ∧ ∃ v, input.get? "value" = some v

theorem zoomAndValue?_eq_some : zoomAndValue? input = some (z, v) ↔
    (input.get? "zoom").bind Json.num? = some z ∧ input.get? "value" = some v := by
  constructor
  · intro h
    obtain ⟨j, hj, h⟩ := Option.bind_eq_some_iff.1 h
    obtain ⟨y, hy, h⟩ := Option.bind_eq_some_iff.1 h
    obtain ⟨w, hw, h⟩ := Option.bind_eq_some_iff.1 h
    cases h
    exact ⟨Option.bind_eq_some_iff.2 ⟨j, hj, hy⟩, hw⟩
  · rintro ⟨hz, hv⟩
    obtain ⟨j, hj, hz⟩ := Option.bind_eq_some_iff.1 hz
    exact Option.bind_eq_some_iff.2 ⟨j, hj, Option.bind_eq_some_iff.2 ⟨z, hz,
      Option.bind_eq_some_iff.2 ⟨v, hv, rfl⟩⟩⟩

theorem hasZoomAndValue_iff :
    HasZoomAndValue input ↔ ∃ z v, zoomAndValue? input = some (z, v) := by
  simp only [zoomAndValue?_eq_some, HasZoomAndValue, exists_and_left, exists_and_right]

instance (input : Json) : Decidable (HasZoomAndValue input) :=
  decidable_of_iff ((zoomAndValue? input).isSome = true) <| by
    rw [hasZoomAndValue_iff, Option.isSome_iff_exists, Prod.exists]

theorem withoutZooms_cons (h : zoomAndValue? input = some (z, v)) (output : Json)
    (stops : List (Json × Json)) :
    withoutZooms ((input, output) :: stops) = (v, output) :: withoutZooms stops := by
  rw [withoutZooms, List.filterMap_cons, h]
  rfl

/-! ## One pass -/

theorem groups_cons_eq (h : zoomAndValue? input = some (z, v)) (output : Json)
    (stops : List (Json × Json)) (done : List (Float × List (Json × Json))) :
    groups done ((input, output) :: stops) = groups (addToGroup z (v, output) done) stops := by
  rw [groups, h]

theorem exists_groups (h : ∀ stop ∈ stops, HasZoomAndValue stop.1)
    (done : List (Float × List (Json × Json))) : ∃ gs, groups done stops = .ok gs := by
  induction stops generalizing done with
  | nil => exact ⟨done, rfl⟩
  | cons stop stops ih =>
      obtain ⟨input, output⟩ := stop
      obtain ⟨hfirst, hrest⟩ := List.forall_mem_cons.1 h
      obtain ⟨z, v, hstop⟩ := hasZoomAndValue_iff.1 hfirst
      rw [groups_cons_eq hstop]
      exact ih hrest _

theorem groups_eq_error (hmem : stop ∈ stops) (hlacks : ¬ HasZoomAndValue stop.1)
    (done : List (Float × List (Json × Json))) :
    ∃ before first after, stops = before ++ first :: after ∧
      (∀ s ∈ before, HasZoomAndValue s.1) ∧ ¬ HasZoomAndValue first.1 ∧
      groups done stops = .error (.stopShape first.1) := by
  induction stops generalizing done with
  | nil => cases hmem
  | cons head stops ih =>
      obtain ⟨input, output⟩ := head
      cases hhead : zoomAndValue? input with
      | none =>
          refine ⟨[], (input, output), stops, rfl, nofun, ?_, ?_⟩
          · rw [hasZoomAndValue_iff]
            rintro ⟨z, v, hsome⟩
            cases hhead.symm.trans hsome
          · rw [groups, hhead]
            rfl
      | some zv =>
          obtain ⟨z, v⟩ := zv
          have hhas : HasZoomAndValue input := hasZoomAndValue_iff.2 ⟨z, v, hhead⟩
          have hmem : stop ∈ stops := by
            rcases List.mem_cons.1 hmem with rfl | hmem
            · exact absurd hhas hlacks
            · exact hmem
          obtain ⟨before, first, after, rfl, hbefore, hfirst, herror⟩ :=
            ih hmem (addToGroup z (v, output) done)
          refine ⟨(input, output) :: before, first, after, rfl,
            List.forall_mem_cons.2 ⟨hhas, hbefore⟩, hfirst, ?_⟩
          rw [groups_cons_eq hhead, herror]

/-! ## Zooms of groups -/

/-- Groups are added for the zooms that have none yet, each once and in order. -/
theorem firstZooms_of_groups (h : groups done stops = .ok gs) :
    gs.map (·.1) = done.map (·.1) ++
      ((zooms stops).filter fun z => !(done.map (·.1)).any (· == z)).eraseDups := by
  induction stops generalizing done with
  | nil =>
      cases h
      exact (List.append_nil _).symm
  | cons stop stops ih =>
      obtain ⟨input, output⟩ := stop
      obtain ⟨z, v, hstop, hrest⟩ := groups_cons h
      have hany : (done.map (·.1)).any (· == z) = done.any fun g => g.1 == z := List.any_map
      rw [ih hrest, zooms_addToGroup, zooms_cons hstop, List.filter_cons, hany]
      cases done.any fun g => g.1 == z with
      | true =>
          rw [if_pos rfl, Bool.not_true, if_neg Bool.false_ne_true, List.append_nil]
      | false =>
          have hnew : (fun w => !(done.map (·.1) ++ [z]).any (· == w)) = fun w =>
              !(w == z) && !(done.map (·.1)).any (· == w) := by
            funext w
            rw [List.any_append, Bool.not_or, Bool.and_comm, List.any_cons, List.any_nil,
              Bool.or_false, Float.beq_comm z w]
          rw [if_neg Bool.false_ne_true, Bool.not_false, if_pos rfl, hnew, List.append_assoc,
            List.eraseDups_cons, List.filter_filter]
          rfl

/-- No two groups have the same zoom. -/
def Distinct (gs : List (Float × List (Json × Json))) : Prop :=
  gs.Pairwise fun a b => (a.1 == b.1) = false

theorem Distinct.addToGroup (h : Distinct gs) (z : Float) (stop : Json × Json) :
    Distinct (addToGroup z stop gs) := by
  rw [Distinct, ← List.pairwise_map (R := fun x y : Float => (x == y) = false)] at h ⊢
  rw [zooms_addToGroup]
  cases hany : gs.any fun g => g.1 == z with
  | true =>
      rw [if_pos rfl, List.append_nil]
      exact h
  | false =>
      rw [if_neg Bool.false_ne_true]
      refine List.pairwise_append.2 ⟨h, List.pairwise_singleton _ _, fun y hy w hw => ?_⟩
      obtain ⟨g, hg, rfl⟩ := List.mem_map.1 hy
      cases List.mem_singleton.1 hw
      exact Bool.eq_false_iff.2 (List.any_eq_false.1 hany g hg)

theorem Distinct.groups (hdone : Distinct done) (h : groups done stops = .ok gs) :
    Distinct gs := by
  induction stops generalizing done with
  | nil =>
      cases h
      exact hdone
  | cons stop stops ih =>
      obtain ⟨input, output⟩ := stop
      obtain ⟨z, v, _, hrest⟩ := groups_cons h
      exact ih (hdone.addToGroup z (v, output)) hrest

/-- Groups of the same zoom are the same group. -/
theorem Distinct.index_eq (h : Distinct gs) {i j : Nat} {a b : Float × List (Json × Json)}
    (ha : gs[i]? = some a) (hb : gs[j]? = some b) (hsame : (a.1 == b.1) = true) : i = j := by
  obtain ⟨hi, rfl⟩ := List.getElem?_eq_some_iff.1 ha
  obtain ⟨hj, rfl⟩ := List.getElem?_eq_some_iff.1 hb
  have hordered := List.pairwise_iff_getElem.1 h
  rcases Nat.lt_trichotomy i j with hlt | heq | hlt
  · rw [hordered i j hi hj hlt] at hsame
    cases hsame
  · exact heq
  · rw [Float.beq_comm, hordered j i hj hi hlt] at hsame
    cases hsame

/-! ## Members of groups -/

theorem members_addToGroup (z : Float) (stop : Json × Json)
    (gs : List (Float × List (Json × Json))) :
    ((addToGroup z stop gs).flatMap (·.2)).Perm (gs.flatMap (·.2) ++ [stop]) := by
  induction gs with
  | nil => exact .refl _
  | cons g gs ih =>
      obtain ⟨y, members⟩ := g
      rw [addToGroup]
      split
      · -- the stop stands before the members of the groups that follow
        rw [List.flatMap_cons, List.flatMap_cons, List.append_assoc, List.append_assoc]
        exact List.perm_append_comm.append_left members
      · rw [List.flatMap_cons, List.flatMap_cons, List.append_assoc]
        exact ih.append_left members

theorem members_of_groups (h : groups done stops = .ok gs) :
    (gs.flatMap (·.2)).Perm (done.flatMap (·.2) ++ withoutZooms stops) := by
  induction stops generalizing done with
  | nil =>
      cases h
      rw [withoutZooms, List.filterMap_nil, List.append_nil]
  | cons stop stops ih =>
      obtain ⟨input, output⟩ := stop
      obtain ⟨z, v, hstop, hrest⟩ := groups_cons h
      have hadded := (members_addToGroup z (v, output) done).append_right (withoutZooms stops)
      rw [List.append_assoc] at hadded
      rw [withoutZooms_cons hstop]
      exact (ih hrest).trans hadded

/-! ## All stops at once -/

/-- Stops of both zoom and value are grouped by their zoom. -/
structure Grouped (stops : List (Json × Json)) (gs : List (Float × List (Json × Json))) :
    Prop where
  /-- There is a group for each zoom, in the order in which the zooms first occur. -/
  firsts : gs.map (·.1) = (zooms stops).eraseDups
  /-- No zoom has two groups. -/
  distinct : Distinct gs
  /-- A group has the stops at its zoom, in their order. -/
  members : ∀ g ∈ gs, g.2 = ofZoom g.1 stops
  /-- A stop is in the group of its zoom, and in no other. -/
  one : ∀ stop ∈ stops, ∀ z v, zoomAndValue? stop.1 = some (z, v) →
    ∃! i : Nat, ∃ g, gs[i]? = some g ∧ (g.1 == z) = true ∧ (v, stop.2) ∈ g.2
  /-- No stop is lost, and none is there twice. -/
  whole : (gs.flatMap (·.2)).Perm (withoutZooms stops)

theorem mem_ofZoom (hmem : stop ∈ stops) (hstop : zoomAndValue? stop.1 = some (z, v)) {w : Float}
    (hw : (w == z) = true) : (v, stop.2) ∈ ofZoom w stops := by
  refine List.mem_filterMap.2 ⟨stop, hmem, ?_⟩
  rw [hstop, Option.filter_some, if_pos ((Float.beq_comm z w).trans hw)]
  rfl

theorem grouped_of_groups (h : groups [] stops = .ok gs) : Grouped stops gs := by
  have hdistinct : Distinct gs := Distinct.groups .nil h
  have hnone : SameZooms [] [] := ⟨nofun, nofun, nofun⟩
  have hsame : SameZooms (gs.map (·.1)) (zooms stops) := sameZooms_of_groups h hnone
  have hmembers : ∀ g ∈ gs, g.2 = ofZoom g.1 stops := by
    intro g hg
    obtain ⟨z, _, hgz⟩ := hsame.found g.1 (List.mem_map_of_mem hg)
    have hself : (g.1 == g.1) = true := (Float.beq_congr hgz g.1).trans hgz
    exact eq_ofZoom_of_mem h hdistinct hg hself
  constructor
  case firsts =>
    have hall : (zooms stops).filter (fun _ => true) = zooms stops :=
      List.filter_eq_self.2 fun _ _ => rfl
    exact (firstZooms_of_groups h).trans (congrArg List.eraseDups hall)
  case distinct => exact hdistinct
  case members => exact hmembers
  case one =>
    intro stop hmem z v hstop
    have hz : z ∈ zooms stops := List.mem_filterMap.2 ⟨stop, hmem, by rw [hstop]; rfl⟩
    obtain ⟨y, hy, hyz⟩ := hsame.complete z hz
    obtain ⟨g, hg, rfl⟩ := List.mem_map.1 hy
    obtain ⟨i, hi⟩ := List.mem_iff_getElem?.1 hg
    refine ⟨i, ⟨g, hi, hyz, ?_⟩, ?_⟩
    · rw [hmembers g hg]
      exact mem_ofZoom hmem hstop hyz
    · rintro j ⟨b, hj, hbz, _⟩
      exact hdistinct.index_eq hj hi ((Float.beq_congr hyz b.1).trans hbz)
  case whole => exact members_of_groups h

/-! ## Conversion -/

/-- A stop function of both zoom and a property becomes a zoom curve with one function of the
property for each group, or, where a stop lacks a zoom or a value, an error that has the first such
stop. -/
theorem ofZoomAndProperty_groups (f : StopFunction) (kind : StopKind) (spec : PropertySpec)
    (default : Json) (property : String) :
    ((∀ stop ∈ f.stops, HasZoomAndValue stop.1) →
      ∃ gs, Grouped f.stops gs ∧ ofZoomAndProperty f kind spec default property =
        .ok (curve f kind zoom (gs.map fun (z, stops) =>
          (.ofFloat z, ofProperty f kind spec default property stops)))) ∧
    ∀ stop ∈ f.stops, ¬ HasZoomAndValue stop.1 →
      ∃ before first after, f.stops = before ++ first :: after ∧
        (∀ s ∈ before, HasZoomAndValue s.1) ∧ ¬ HasZoomAndValue first.1 ∧
        ofZoomAndProperty f kind spec default property = .error (.stopShape first.1) := by
  constructor
  · intro h
    obtain ⟨gs, hgs⟩ := exists_groups h []
    refine ⟨gs, grouped_of_groups hgs, ?_⟩
    rw [ofZoomAndProperty, hgs]
    rfl
  · intro stop hmem hlacks
    obtain ⟨before, first, after, hstops, hbefore, hfirst, herror⟩ :=
      groups_eq_error hmem hlacks []
    refine ⟨before, first, after, hstops, hbefore, hfirst, ?_⟩
    rw [ofZoomAndProperty, herror]
    rfl

/-- The classes of roads at zoom levels that take turns, with zero written in two ways. -/
def turns : StopFunction where
  kind := some .categorical
  property := some "class"
  base := none
  stops := [
    (.ofMembers [("zoom", .ofNat 0), ("value", .str "path")], .ofNat 1),
    (.ofMembers [("zoom", .ofNat 5), ("value", .str "path")], .ofNat 2),
    (.ofMembers [("zoom", .double (-0.0)), ("value", .str "road")], .ofNat 3)]
  default := none

/-- The same, and a class at no zoom level. -/
def turnsAndMore : StopFunction :=
  { turns with stops := turns.stops ++ [(.ofMembers [("value", .str "track")], .ofNat 4)] }

theorem ofZoomAndProperty_turns :
    (∃ gs, Grouped turns.stops gs ∧ gs.map (·.2.length) = [2, 1] ∧
      ofZoomAndProperty turns .categorical ⟨.number, none⟩ .null "class" =
        .ok (curve turns .categorical zoom (gs.map fun (z, stops) =>
          (.ofFloat z, ofProperty turns .categorical ⟨.number, none⟩ .null "class" stops)))) ∧
    ∃ first, first ∈ turnsAndMore.stops ∧ ¬ HasZoomAndValue first.1 ∧
      ofZoomAndProperty turnsAndMore .categorical ⟨.number, none⟩ .null "class" =
        .error (.stopShape first.1) := by
  constructor
  · have hall : ∀ stop ∈ turns.stops, HasZoomAndValue stop.1 := by decide +kernel
    obtain ⟨gs, hgs, hbuilt⟩ :=
      (ofZoomAndProperty_groups turns .categorical ⟨.number, none⟩ .null "class").1 hall
    refine ⟨gs, hgs, ?_, hbuilt⟩
    have hlengths : gs.map (·.2.length) =
        (gs.map (·.1)).map fun z => (ofZoom z turns.stops).length := by
      rw [List.map_map]
      exact List.map_congr_left fun g hg => congrArg List.length (hgs.members g hg)
    rw [hlengths, hgs.firsts]
    decide +kernel
  · obtain ⟨stop, hmem, hlacks⟩ : ∃ stop ∈ turnsAndMore.stops, ¬ HasZoomAndValue stop.1 := by
      decide +kernel
    obtain ⟨before, first, after, hstops, _, hfirst, herror⟩ :=
      (ofZoomAndProperty_groups turnsAndMore .categorical ⟨.number, none⟩ .null "class").2
        stop hmem hlacks
    exact ⟨first, by rw [hstops]; simp, hfirst, herror⟩

end Conversion
end MapStyle
