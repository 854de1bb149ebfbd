/-
  OServer/HttpUrlQuery.lean
  =========================
  **The query of a target (`http_url_parse_query`).**

  The pointer to a value is set again at every byte of the value, so that a query item
  holds the last byte of it.  A `#` ends an item as a `&` does, and the parser goes on
  behind it.
-/
import OServer.HttpUrl
import Mathlib.Data.List.TakeWhile

namespace OServer

open CString

/-! ## 1. Queries -/

/-- The bytes of the name and of the value of an item. -/
def HttpUrlQueryItem.text (url : List UInt8) (q : HttpUrlQueryItem) : List UInt8 × List UInt8 :=
  ((url.drop q.name).take q.nameLen.toNat, (url.drop q.value).take q.valueLen.toNat)

def isSeparatorOfQuery (c : UInt8) : Bool := c = '#'.toUInt8 ∨ c = '&'.toUInt8

/-- A name or a value that can stand in a query as it is. -/
structure QueryWord (w : List UInt8) : Prop where
  ne : w ≠ []
  plain : ∀ c ∈ w, isSeparatorOfQuery c = false
  noEq : '='.toUInt8 ∉ w

instance queryWordDecidable (w : List UInt8) : Decidable (QueryWord w) :=
  decidable_of_iff (w ≠ [] ∧ (∀ c ∈ w, isSeparatorOfQuery c = false) ∧ '='.toUInt8 ∉ w)
    ⟨fun h => ⟨h.1, h.2.1, h.2.2⟩, fun h => ⟨h.ne, h.plain, h.noEq⟩⟩

/-- `name1=value1&...&namen=valuen`. -/
def queryText : List (List UInt8 × List UInt8) → List UInt8
  | [] => []
  | [(n, v)] => n ++ '='.toUInt8 :: v
  | (n, v) :: pairs => n ++ '='.toUInt8 :: v ++ '&'.toUInt8 :: queryText pairs

def fragmentText : Option (List UInt8) → List UInt8
  | none => []
  | some f => '#'.toUInt8 :: f

/-- Between two separators stands an item: a name, a `=`, and a byte of a value. -/
def HasItem (w : List UInt8) : Prop :=
  ((w.dropWhile (· = '='.toUInt8)).dropWhile (· ≠ '='.toUInt8)).any (· ≠ '='.toUInt8) = true

/-- The parser finds an item behind the `#`. -/
def FragmentHasItem (f : List UInt8) : Prop :=
  HasItem (f.takeWhile fun c => !isSeparatorOfQuery c)

/-! ## 2. The pointers between two separators -/

/-- What a byte that is no separator does to the pointers. -/
def QueryScan.byte (st : QueryScan) (c : UInt8) (i : Nat) : QueryScan :=
  if c = '='.toUInt8 then if st.ns.isSome then { st with ne := some i } else st
  else if st.ns.isNone then { st with ns := some i }
  else if st.ne.isSome then { st with vs := some i }
  else st

def QueryScan.scan : List UInt8 → Nat → QueryScan → QueryScan
  | [], _, st => st
  | c :: w, i, st => QueryScan.scan w (i + 1) (st.byte c i)

theorem queryLoop_scan {w : List UInt8} (hw : ∀ c ∈ w, isSeparatorOfQuery c = false)
    (base : Nat) (rest : List UInt8) (i : Nat) (st : QueryScan) (items : List HttpUrlQueryItem) :
    queryLoop base (w ++ rest) i st items =
      queryLoop base rest (i + w.length) (QueryScan.scan w i st) items := by
  induction w generalizing i st with
  | nil => rfl
  | cons c w ih =>
    have hc : ¬(c = '#'.toUInt8 ∨ c = '&'.toUInt8) := of_decide_eq_false (hw c List.mem_cons_self)
    have hnext := ih (fun d hd => hw d (List.mem_cons_of_mem c hd)) (i + 1) (st.byte c i)
    rw [List.cons_append, queryLoop, if_neg hc]
    rw [List.length_cons, Nat.add_comm w.length, ← Nat.add_assoc, QueryScan.scan, ← hnext]
    unfold QueryScan.byte
    split_ifs <;> rfl

theorem QueryScan.scan_append (w w' : List UInt8) (i : Nat) (st : QueryScan) :
    QueryScan.scan (w ++ w') i st = QueryScan.scan w' (i + w.length) (QueryScan.scan w i st) := by
  induction w generalizing i st with
  | nil => rfl
  | cons c w ih =>
    rw [List.cons_append, QueryScan.scan, ih, List.length_cons, Nat.add_comm w.length,
      ← Nat.add_assoc]
    rfl

/-- A name, once its first byte has been seen. -/
theorem QueryScan.scan_name {w : List UInt8} (hw : '='.toUInt8 ∉ w) (i ns : Nat) :
    QueryScan.scan w i ⟨some ns, none, none⟩ = ⟨some ns, none, none⟩ := by
  induction w generalizing i with
  | nil => rfl
  | cons c w ih =>
    rw [List.mem_cons, not_or] at hw
    have hbyte : QueryScan.byte ⟨some ns, none, none⟩ c i = ⟨some ns, none, none⟩ := by
      simp [QueryScan.byte, Ne.symm hw.1]
    rw [QueryScan.scan, hbyte, ih hw.2]

/-- **Every byte of a value moves the pointer to its start.** -/
theorem QueryScan.scan_value {w : List UInt8} (hne : w ≠ []) (hw : '='.toUInt8 ∉ w)
    (i ns ne : Nat) (vs : Option Nat) :
    QueryScan.scan w i ⟨some ns, some ne, vs⟩ = ⟨some ns, some ne, some (i + (w.length - 1))⟩ := by
  induction w generalizing i vs with
  | nil => exact absurd rfl hne
  | cons c w ih =>
    rw [List.mem_cons, not_or] at hw
    have hbyte : QueryScan.byte ⟨some ns, some ne, vs⟩ c i = ⟨some ns, some ne, some i⟩ := by
      simp [QueryScan.byte, Ne.symm hw.1]
    rw [QueryScan.scan, hbyte]
    cases w with
    | nil => rfl
    | cons d w =>
      rw [ih (List.cons_ne_nil d w) hw.2]
      simp
      omega

/-! ## 3. Items -/

/-- The item that the parser makes of a pair at index `i`. -/
def pairItem (base i : Nat) (p : List UInt8 × List UInt8) : HttpUrlQueryItem :=
  ⟨base + i, p.1.length, base + (i + p.1.length + p.2.length), 1⟩

theorem QueryScan.scan_pair {n v : List UInt8} (hn : QueryWord n) (hv : QueryWord v)
    (base i : Nat) :
    (QueryScan.scan (n ++ '='.toUInt8 :: v) i .empty).item base
      (i + (n ++ '='.toUInt8 :: v).length) = some (pairItem base i (n, v)) := by
  cases n with
  | nil => exact absurd rfl hn.ne
  | cons c n =>
    have hnoEq := hn.noEq
    rw [List.mem_cons, not_or] at hnoEq
    have hfirst : QueryScan.byte .empty c i = ⟨some i, none, none⟩ := by
      simp [QueryScan.byte, QueryScan.empty, Ne.symm hnoEq.1]
    have hequals : ∀ j, QueryScan.byte ⟨some i, none, none⟩ '='.toUInt8 j = ⟨some i, some j, none⟩ :=
      fun _ => rfl
    rw [List.cons_append, QueryScan.scan, hfirst, QueryScan.scan_append,
      QueryScan.scan_name hnoEq.2, QueryScan.scan, hequals, QueryScan.scan_value hv.ne hv.noEq]
    have hpos := List.length_pos_iff.mpr hv.ne
    simp [QueryScan.item, pairItem]
    omega

/-- The slices of the item: the name, and the last byte of the value. -/
theorem pairItem_text {url n v q : List UInt8} {base i : Nat} (hv : v ≠ [])
    (h : url.drop (base + i) = n ++ '='.toUInt8 :: v ++ q) :
    (pairItem base i (n, v)).text url = (n, v.drop (v.length - 1)) := by
  rcases List.eq_nil_or_concat v with hnil | ⟨v, c, rfl⟩
  · exact absurd hnil hv
  have hname : (url.drop (base + i)).take n.length = n := by
    rw [h, List.append_assoc, List.take_left]
  have hlast : url.drop (base + (i + n.length + (v.concat c).length)) = c :: q := by
    have hoff : base + (i + n.length + (v.concat c).length) =
        base + i + (n ++ '='.toUInt8 :: v).length := by
      rw [List.length_concat, List.length_append, List.length_cons]
      omega
    rw [hoff, ← List.drop_drop, h, List.concat_eq_append]
    simp
  have hvalue : (v.concat c).drop ((v.concat c).length - 1) = [c] := by
    simp
  simp only [HttpUrlQueryItem.text, pairItem, Int.toNat_natCast, hname, hlast, hvalue]
  rfl

/-! ## 4. The items of a query -/

theorem queryLoop_items (base : Nat) (p : List UInt8) (i : Nat) (st : QueryScan)
    (items : List HttpUrlQueryItem) : ∃ its, (queryLoop base p i st items).2 = items ++ its := by
  induction p generalizing i st items with
  | nil => exact ⟨_, rfl⟩
  | cons c p ih =>
    rw [queryLoop]
    split_ifs
    · cases st.item base i with
      | none => exact ⟨[], (List.append_nil items).symm⟩
      | some q =>
        rcases ih (i + 1) .empty (items ++ [q]) with ⟨its, h⟩
        exact ⟨q :: its, by rw [h, List.append_assoc]; rfl⟩
    all_goals exact ih _ _ _

/-- The items in the end when the pairs end before index `i`. -/
def behindPairs (base i : Nat) (items : List HttpUrlQueryItem) :
    Option (List UInt8) → List HttpUrlQueryItem
  | none => items
  | some f => (queryLoop base f (i + 1) .empty items).2

/-- The pairs of a query, up to its end or to the `#`. -/
theorem queryLoop_pairs {url : List UInt8} {base : Nat} {pairs : List (List UInt8 × List UInt8)}
    (hne : pairs ≠ []) (hpairs : ∀ p ∈ pairs, QueryWord p.1 ∧ QueryWord p.2)
    (fragment : Option (List UInt8)) {i : Nat} {q : List UInt8}
    (h : url.drop (base + i) = queryText pairs ++ q) (items : List HttpUrlQueryItem) :
    ∃ its, its.map (·.text url) = pairs.map (fun p => (p.1, p.2.drop (p.2.length - 1))) ∧
      (queryLoop base (queryText pairs ++ fragmentText fragment) i .empty items).2 =
        behindPairs base (i + (queryText pairs).length) (items ++ its) fragment := by
  induction pairs generalizing i items with
  | nil => exact absurd rfl hne
  | cons p pairs ih =>
    rcases p with ⟨n, v⟩
    rcases hpairs (n, v) List.mem_cons_self with ⟨hn, hv⟩
    have hplain : ∀ c ∈ n ++ '='.toUInt8 :: v, isSeparatorOfQuery c = false := by
      intro c hc
      rcases List.mem_append.mp hc with hc | hc
      · exact hn.plain c hc
      · rcases List.mem_cons.mp hc with rfl | hc
        · rfl
        · exact hv.plain c hc
    have hitem := QueryScan.scan_pair hn hv base i
    cases pairs with
    | nil =>
      have htext := pairItem_text hv.ne h
      refine ⟨[pairItem base i (n, v)], by rw [List.map_singleton, htext]; rfl, ?_⟩
      rw [queryText, queryLoop_scan hplain]
      cases fragment with
      | none =>
        rw [fragmentText, queryLoop, hitem]
        rfl
      | some f =>
        rw [fragmentText, queryLoop, if_pos (Or.inl rfl), hitem]
        rfl
    | cons p pairs =>
      have hquery : queryText ((n, v) :: p :: pairs) =
          (n ++ '='.toUInt8 :: v) ++ '&'.toUInt8 :: queryText (p :: pairs) := rfl
      rw [hquery, List.append_assoc] at h
      have hrest : url.drop (base + (i + (n ++ '='.toUInt8 :: v).length + 1)) =
          queryText (p :: pairs) ++ q := by
        rw [← Nat.add_assoc, ← Nat.add_assoc, ← List.drop_drop, ← List.drop_drop, h, List.drop_left]
        rfl
      rcases ih (List.cons_ne_nil p pairs) (fun p' hp' => hpairs p' (List.mem_cons_of_mem _ hp'))
        hrest (items ++ [pairItem base i (n, v)]) with ⟨its, hits, hloop⟩
      have htext := pairItem_text hv.ne h
      refine ⟨pairItem base i (n, v) :: its, by rw [List.map_cons, htext, hits]; rfl, ?_⟩
      rw [hquery, List.append_assoc, List.cons_append, queryLoop_scan hplain, queryLoop,
        if_pos (Or.inr rfl), hitem]
      have hlen : i + (n ++ '='.toUInt8 :: v).length + 1 + (queryText (p :: pairs)).length =
          i + ((n ++ '='.toUInt8 :: v) ++ '&'.toUInt8 :: queryText (p :: pairs)).length := by
        simp only [List.length_append, List.length_cons]
        omega
      rw [hlen, List.append_assoc items] at hloop
      exact hloop

/-! ## 5. Behind the `#` -/

/-- Once the name is complete, any byte but `=` begins a value. -/
theorem QueryScan.scan_vs {w : List UInt8} (i ns ne : Nat) (vs : Option Nat) :
    ∃ ne' vs', QueryScan.scan w i ⟨some ns, some ne, vs⟩ = ⟨some ns, some ne', vs'⟩ ∧
      (vs'.isSome = true ↔ vs.isSome = true ∨ w.any (· ≠ '='.toUInt8) = true) := by
  induction w generalizing i ne vs with
  | nil => exact ⟨ne, vs, rfl, by simp⟩
  | cons c w ih =>
    by_cases hc : c = '='.toUInt8
    · rcases ih (i + 1) i vs with ⟨ne', vs', hscan, hiff⟩
      refine ⟨ne', vs', ?_, ?_⟩
      · rw [QueryScan.scan, hc]
        exact hscan
      · rw [hiff]
        simp [hc]
    · rcases ih (i + 1) ne (some i) with ⟨ne', vs', hscan, hiff⟩
      refine ⟨ne', vs', ?_, ?_⟩
      · have hbyte : QueryScan.byte ⟨some ns, some ne, vs⟩ c i = ⟨some ns, some ne, some i⟩ := by
          simp [QueryScan.byte, hc]
        rw [QueryScan.scan, hbyte, hscan]
      · rw [hiff]
        simp [hc]

/-- Once the name has begun, a `=` completes it. -/
theorem QueryScan.scan_ne {w : List UInt8} (base i ns j : Nat) :
    ((QueryScan.scan w i ⟨some ns, none, none⟩).item base j).isSome = true ↔
      (w.dropWhile (· ≠ '='.toUInt8)).any (· ≠ '='.toUInt8) = true := by
  induction w generalizing i with
  | nil => simp [QueryScan.scan, QueryScan.item]
  | cons c w ih =>
    by_cases hc : c = '='.toUInt8
    · subst hc
      rcases QueryScan.scan_vs (w := w) (i + 1) ns i none with ⟨ne', vs', hscan, hiff⟩
      have hbyte : QueryScan.byte ⟨some ns, none, none⟩ '='.toUInt8 i = ⟨some ns, some i, none⟩ := rfl
      have hitem : ((⟨some ns, some ne', vs'⟩ : QueryScan).item base j).isSome = vs'.isSome := by
        cases vs' <;> rfl
      rw [QueryScan.scan, hbyte, hscan, hitem, hiff]
      simp
    · have hbyte : QueryScan.byte ⟨some ns, none, none⟩ c i = ⟨some ns, none, none⟩ := by
        simp [QueryScan.byte, hc]
      have hdrop : (c :: w).dropWhile (· ≠ '='.toUInt8) = w.dropWhile (· ≠ '='.toUInt8) := by
        simp [hc]
      rw [QueryScan.scan, hbyte, ih, hdrop]

theorem QueryScan.scan_isSome {w : List UInt8} (base i j : Nat) :
    ((QueryScan.scan w i .empty).item base j).isSome = true ↔ HasItem w := by
  unfold HasItem
  induction w generalizing i with
  | nil => simp [QueryScan.scan, QueryScan.item, QueryScan.empty]
  | cons c w ih =>
    by_cases hc : c = '='.toUInt8
    · have hbyte : QueryScan.byte .empty c i = .empty := by
        simp [QueryScan.byte, QueryScan.empty, hc]
      have hdrop : (c :: w).dropWhile (· = '='.toUInt8) = w.dropWhile (· = '='.toUInt8) := by
        simp [hc]
      rw [QueryScan.scan, hbyte, ih, hdrop]
    · have hbyte : QueryScan.byte .empty c i = ⟨some i, none, none⟩ := by
        simp [QueryScan.byte, QueryScan.empty, hc]
      have hdrop : ((c :: w).dropWhile (· = '='.toUInt8)).dropWhile (· ≠ '='.toUInt8) =
          w.dropWhile (· ≠ '='.toUInt8) := by
        simp [hc]
      rw [QueryScan.scan, hbyte, QueryScan.scan_ne, hdrop]

theorem exists_separator (f : List UInt8) :
    (∀ c ∈ f, isSeparatorOfQuery c = false) ∨
    ∃ w c rest, f = w ++ c :: rest ∧ (∀ d ∈ w, isSeparatorOfQuery d = false) ∧
      isSeparatorOfQuery c = true := by
  induction f with
  | nil => exact Or.inl fun c hc => absurd hc List.not_mem_nil
  | cons d f ih =>
    cases hd : isSeparatorOfQuery d with
    | true => exact Or.inr ⟨[], d, f, rfl, fun c hc => absurd hc List.not_mem_nil, hd⟩
    | false =>
      rcases ih with hplain | ⟨w, c, rest, rfl, hplain, hc⟩
      · exact Or.inl (List.forall_mem_cons.mpr ⟨hd, hplain⟩)
      · exact Or.inr ⟨d :: w, c, rest, rfl, List.forall_mem_cons.mpr ⟨hd, hplain⟩, hc⟩

/-- Nothing is found behind the `#` exactly when no item comes first there. -/
theorem queryLoop_fragment (base : Nat) (f : List UInt8) (i : Nat)
    (items : List HttpUrlQueryItem) :
    ∃ its, (queryLoop base f i .empty items).2 = items ++ its ∧ (its = [] ↔ ¬FragmentHasItem f) := by
  unfold FragmentHasItem
  rcases exists_separator f with hplain | ⟨w, c, rest, rfl, hplain, hc⟩
  · have htext : f.takeWhile (fun c => !isSeparatorOfQuery c) = f := by
      rw [List.takeWhile_eq_self_iff]
      intro c hc
      rw [hplain c hc]
      rfl
    have hloop := queryLoop_scan hplain base [] i .empty items
    rw [List.append_nil] at hloop
    refine ⟨((QueryScan.scan f i .empty).item base (i + f.length)).toList, by rw [hloop]; rfl, ?_⟩
    rw [htext, ← QueryScan.scan_isSome base i (i + f.length)]
    simp
  · have htext : (w ++ c :: rest).takeWhile (fun c => !isSeparatorOfQuery c) = w := by
      rw [List.takeWhile_append_of_pos fun d hd => by rw [hplain d hd]; rfl,
        List.takeWhile_cons_of_neg (by rw [hc]; decide), List.append_nil]
    have hsep : c = '#'.toUInt8 ∨ c = '&'.toUInt8 := of_decide_eq_true hc
    rw [htext, ← QueryScan.scan_isSome base i (i + w.length), queryLoop_scan hplain, queryLoop,
      if_pos hsep]
    cases (QueryScan.scan w i .empty).item base (i + w.length) with
    | none => exact ⟨[], (List.append_nil items).symm, by simp⟩
    | some q =>
      rcases queryLoop_items base rest (i + w.length + 1) .empty (items ++ [q]) with ⟨its, h⟩
      exact ⟨q :: its, by rw [h, List.append_assoc]; rfl, by simp⟩

/-! ## 6. Queries are parsed up to the last byte of each value -/

/-- The last byte of a value is the value exactly when there is no other. -/
theorem lastByte_eq_iff {pairs : List (List UInt8 × List UInt8)}
    (hpairs : ∀ p ∈ pairs, QueryWord p.1 ∧ QueryWord p.2) :
    pairs.map (fun p => (p.1, p.2.drop (p.2.length - 1))) = pairs ↔
      ∀ p ∈ pairs, p.2.length = 1 := by
  have hmap := List.map_eq_map_iff (l := pairs)
    (f := fun p : List UInt8 × List UInt8 => (p.1, p.2.drop (p.2.length - 1))) (g := id)
  rw [List.map_id] at hmap
  rw [hmap]
  refine forall₂_congr fun p hp => ?_
  have hpos := List.length_pos_iff.mpr (hpairs p hp).2.ne
  constructor
  · intro h
    have hlen : (p.2.drop (p.2.length - 1)).length = p.2.length :=
      congrArg (fun p : List UInt8 × List UInt8 => p.2.length) h
    rw [List.length_drop] at hlen
    omega
  · intro h
    rw [h]
    rfl

/-- **The parser finds the pairs of a query exactly when every value has one byte**, and
    nothing that follows the `#` looks like an item. -/
theorem httpUrlParseQuery_pairs {url rest : List UInt8} {base : Nat}
    {pairs : List (List UInt8 × List UInt8)}
    (hpairs : ∀ p ∈ pairs, QueryWord p.1 ∧ QueryWord p.2) (fragment : Option (List UInt8))
    (h : url.drop base = queryText pairs ++ fragmentText fragment ++ rest) (d : Option Nat)
    (n : Nat) :
    (httpUrlParseQuery (url.drop base) base (queryText pairs ++ fragmentText fragment).length
        ⟨[], d, n⟩).val.queryList.map (·.text url) = pairs ↔
      (∀ p ∈ pairs, p.2.length = 1) ∧
        (pairs = [] ∨ ∀ f, fragment = some f → ¬FragmentHasItem f) := by
  have htake : (url.drop base).take (queryText pairs ++ fragmentText fragment).length =
      queryText pairs ++ fragmentText fragment := by
    rw [h, List.take_left]
  simp only [httpUrlParseQuery, htake]
  by_cases hnil : pairs = []
  · subst hnil
    have hnone : (queryLoop base (queryText [] ++ fragmentText fragment) 0 .empty []).2 = [] := by
      cases fragment <;> rfl
    rw [hnone]
    simp
  have hdrop : url.drop (base + 0) = queryText pairs ++ (fragmentText fragment ++ rest) := by
    rw [Nat.add_zero, h, List.append_assoc]
  rcases queryLoop_pairs hnil hpairs fragment hdrop [] with ⟨its, hits, hloop⟩
  rw [hloop, List.nil_append, ← lastByte_eq_iff hpairs]
  cases fragment with
  | none => simp [behindPairs, hits]
  | some f =>
    rcases queryLoop_fragment base f (0 + (queryText pairs).length + 1) its with
      ⟨its', hfrag, hiff⟩
    rw [behindPairs, hfrag, List.map_append, hits]
    constructor
    · intro heq
      have hlen := congrArg List.length heq
      rw [List.length_append, List.length_map, List.length_map] at hlen
      have hnone : its' = [] := List.length_eq_zero_iff.mp (by omega)
      rw [hnone, List.map_nil, List.append_nil] at heq
      exact ⟨heq, Or.inr fun f' hf' => Option.some.inj hf' ▸ hiff.mp hnone⟩
    · rintro ⟨heq, hnone⟩
      have hits' := hiff.mpr (hnone.resolve_left hnil f rfl)
      rw [hits', List.map_nil, List.append_nil, heq]

/-- Of `a=12` the parser keeps `a` and `2`. -/
theorem httpUrlParseQuery_not_pairs :
    QueryWord (bytes "a") ∧ QueryWord (bytes "12") ∧
    queryText [(bytes "a", bytes "12")] = bytes "a=12" ∧
    (httpUrlParseQuery (bytes "a=12") 0 4 ⟨[], none, 0⟩).val.queryList.map (·.text (bytes "a=12")) ≠
      [(bytes "a", bytes "12")] := by
  decide

theorem httpUrlParseQuery_pairs_flags :
    (httpUrlParseQuery ((bytes "a=1&b=2#c").drop 0) 0 9 ⟨[], none, 0⟩).val.queryList.map
        (·.text (bytes "a=1&b=2#c")) = [(bytes "a", bytes "1"), (bytes "b", bytes "2")] ↔
      (∀ p ∈ [(bytes "a", bytes "1"), (bytes "b", bytes "2")], p.2.length = 1) ∧
        ([(bytes "a", bytes "1"), (bytes "b", bytes "2")] = [] ∨
          ∀ f, some (bytes "c") = some f → ¬FragmentHasItem f) := by
  have hwords : ∀ p ∈ [(bytes "a", bytes "1"), (bytes "b", bytes "2")],
      QueryWord p.1 ∧ QueryWord p.2 := by decide
  have htext : (bytes "a=1&b=2#c").drop 0 =
      queryText [(bytes "a", bytes "1"), (bytes "b", bytes "2")] ++
        fragmentText (some (bytes "c")) ++ [] := by decide
  exact httpUrlParseQuery_pairs hwords (some (bytes "c")) htext none 0

end OServer
