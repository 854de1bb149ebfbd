/-
  OServer/HttpHeaderMap.lean
  ==========================
  **A header collection as a map from field ids to values.**

  What a collection is for: it keeps the first value that was added for a field.

    * `Maps.add`      — `http_header_add_by_id` adds to the map what is not there yet;
    * `Maps.entries`  — in the order of the field ids the collection is the sorted list
                        of the entries of its map.
-/
import OServer.HttpHeaderStr

namespace OServer

open CString

/-! ## 1. Maps that keep what was first -/

section First
variable {κ ν : Type*} [DecidableEq κ]

/-- Add a value for a key that has none. -/
def addFirst (m : κ → Option ν) (k : κ) (x : ν) : κ → Option ν :=
  if (m k).isSome then m else Function.update m k (some x)

theorem addFirst_apply (m : κ → Option ν) (k : κ) (x : ν) (k' : κ) :
    addFirst m k x k' = (m k').or (if k' = k then some x else none) := by
  unfold addFirst
  by_cases heq : k' = k
  · subst heq
    cases hk : m k' with
    | some y => simp [hk]
    | none => simp
  · rw [if_neg heq, Option.or_none]
    split
    · rfl
    · exact Function.update_of_ne heq ..

end First

/-! ## 2. Collections -/

namespace HttpHeaderCollection

/-- The collection holds for each field id what the map says. -/
def Maps (headers : HttpHeaderCollection) (m : BtKey → Option HttpHeader) : Prop :=
  ∀ id h, m id = some h ↔
    ∃ p, headers.headerTree.Linked p ∧ (headers.headerTree.node p).key = id ∧ headers.header p = h

section Maps
variable {headers : HttpHeaderCollection} {v : BtreeView} {m : BtKey → Option HttpHeader}

theorem maps_view_iff (hv : headers.headerTree.Represents v) : headers.Maps m ↔
    ∀ id h, m id = some h ↔ ∃ p ∈ v.tree.toList, v.key p = id ∧ headers.header p = h := by
  unfold Maps
  simp only [hv.linked_iff, hv.key]

theorem exists_maps (headers : HttpHeaderCollection) : ∃ m, headers.Maps m := by
  rcases headers.tree with ⟨v, hv⟩
  refine ⟨fun id => (Avl.AvlTree.find v.key id v.tree).map headers.header, ?_⟩
  rw [maps_view_iff hv]
  intro id h
  simp only [Option.map_eq_some_iff, Avl.AvlTree.find_eq_some_iff v.key v.ordered, and_assoc]

theorem Maps.unique {m' : BtKey → Option HttpHeader} (h : headers.Maps m) (h' : headers.Maps m') :
    m = m' := by
  funext id
  ext x
  exact (h id x).trans (h' id x).symm

theorem maps_init : httpHeaderInit.Maps fun _ => none := by
  intro id h
  refine iff_of_false (fun h => nomatch h) ?_
  rintro ⟨p, hp, -⟩
  exact Btree.not_linked_init _ p hp

/-- What is present for an id. -/
theorem Maps.mem_keys_iff (hm : headers.Maps m) (hv : headers.headerTree.Represents v)
    (id : BtKey) : id ∈ v.keys ↔ (m id).isSome = true := by
  rw [BtreeView.keys, List.mem_map, Option.isSome_iff_exists]
  constructor
  · rintro ⟨p, hp, hkey⟩
    exact ⟨headers.header p, ((maps_view_iff hv).mp hm id _).mpr ⟨p, hp, hkey, rfl⟩⟩
  · rintro ⟨h, hh⟩
    rcases ((maps_view_iff hv).mp hm id h).mp hh with ⟨p, hp, hkey, -⟩
    exact ⟨p, hp, hkey⟩

/-- **Adding a header** changes the map where it has nothing yet. -/
theorem Maps.add (hm : headers.Maps m) (id : BtKey) {value : List UInt8} (lv : Int)
    (hvalue : peek value ≠ NUL) :
    (httpHeaderAddById headers id value lv).2.Maps
      (addFirst m id ⟨value.take lv.toNat, Int16.ofInt lv⟩) := by
  rcases headers.tree with ⟨v, hv⟩
  have hp := brk_not_mem hv
  rcases httpHeaderAddById_view hv id lv hvalue with ⟨-, hrep, hheader, -⟩
  have hkeep : ∀ q ∈ v.tree.toList,
      (v.insert headers.headerTree.brk id hp).key q = v.key q := fun q hq =>
    Function.update_of_ne (ne_of_mem_of_not_mem hq hp) ..
  have hview := (maps_view_iff hv).mp hm
  rw [maps_view_iff hrep]
  intro id' h
  rw [hheader, addFirst]
  by_cases hpresent : (m id).isSome = true
  · -- the node is not linked in
    have hexist := (v.insert_eq_exist_iff hp id).mpr ((hm.mem_keys_iff hv id).mpr hpresent)
    have htree : (v.insert headers.headerTree.brk id hp).tree = v.tree :=
      Avl.AvlTree.insert_exist_eq _ _ v.balanced hexist
    rw [if_pos hpresent, hview, htree]
    refine exists_congr fun q => and_congr_right fun hq => ?_
    rw [hkeep q hq, Function.update_of_ne (ne_of_mem_of_not_mem hq hp)]
  · have hnew : id ∉ v.keys := mt (hm.mem_keys_iff hv id).mp hpresent
    rw [if_neg hpresent]
    simp only [v.mem_insert_iff hp hnew]
    by_cases heq : id' = id
    · subst heq
      rw [Function.update_self]
      constructor
      · intro h'
        refine ⟨headers.headerTree.brk, Or.inl rfl, Function.update_self .., ?_⟩
        rw [Function.update_self]
        exact Option.some.inj h'
      · rintro ⟨q, rfl | hq, hkey, rfl⟩
        · rw [Function.update_self]
        · rw [hkeep q hq] at hkey
          exact absurd (List.mem_map.mpr ⟨q, hq, hkey⟩) hnew
    · rw [Function.update_of_ne heq, hview]
      constructor
      · rintro ⟨q, hq, hkey, hval⟩
        refine ⟨q, Or.inr hq, (hkeep q hq).trans hkey, ?_⟩
        rw [Function.update_of_ne (ne_of_mem_of_not_mem hq hp)]
        exact hval
      · rintro ⟨q, rfl | hq, hkey, hval⟩
        · have hid : id = id' := (Function.update_self ..).symm.trans hkey
          exact absurd hid.symm heq
        · rw [hkeep q hq] at hkey
          rw [Function.update_of_ne (ne_of_mem_of_not_mem hq hp)] at hval
          exact ⟨q, hq, hkey, hval⟩

/-- The entries of the map, sorted by field id, are what the collection lists. -/
theorem Maps.entries (hm : headers.Maps m) {ps : List Ptr} (hps : headers.Listed ps)
    {es : List (BtKey × HttpHeader)} (hsorted : es.Pairwise fun e e' => e.1 < e'.1)
    (hes : ∀ id h, (id, h) ∈ es ↔ m id = some h) :
    ps.map (fun p => ((headers.headerTree.node p).key, headers.header p)) = es := by
  have hsorted' : (ps.map fun p => ((headers.headerTree.node p).key, headers.header p)).Pairwise
      fun e e' => e.1 < e'.1 := List.pairwise_map.mpr hps.sorted
  have hmem : ∀ e, e ∈ ps.map (fun p => ((headers.headerTree.node p).key, headers.header p)) ↔
      e ∈ es := by
    rintro ⟨id, h⟩
    rw [hes, hm, List.mem_map]
    refine exists_congr fun p => ?_
    rw [hps.mem_iff, Prod.mk.injEq]
  have hnodup : ∀ {es : List (BtKey × HttpHeader)}, (es.Pairwise fun e e' => e.1 < e'.1) →
      es.Nodup := fun h => h.imp fun hlt heq => absurd (heq ▸ hlt) (lt_irrefl _)
  have hperm := (List.perm_ext_iff_of_nodup (hnodup hsorted') (hnodup hsorted)).mpr hmem
  exact hperm.eq_of_pairwise (fun _ _ _ _ h h' => absurd (lt_trans h h') (lt_irrefl _)) hsorted'
    hsorted

end Maps

end HttpHeaderCollection

end OServer
