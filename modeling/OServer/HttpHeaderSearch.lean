/-
  OServer/HttpHeaderSearch.lean
  =============================
  **Names are found (`http_header_hash_all_fields`, `http_header_binary_n_search`).**

  The index of the table is sorted by hash, and the binary search compares names only
  where the hashes agree.  It finds the names of the table, in upper or lower case, and
  no others:

    * `bubbleSort_sorts`            — the sort puts the hashes in order;
    * `searchLoop_finds`            — the search finds what is in the index;
    * `httpHeaderFields_hashes`     — no two names have one hash, and none has the hash of
                                      a part of it that it begins with;
    * `httpHeaderBinaryNSearch_iff` — what the search answers, for a target without `NUL`;
    * `httpHeaderBinaryNSearch_exact` — which other targets are taken for a name;
    * `httpHeaderBinarySearch_linear` — the search for a string is a linear search.
-/
import OServer.HttpHeader
import Mathlib.Data.List.Infix
import Mathlib.Data.List.Perm.Basic

namespace OServer

open CString

/-! ## 1. The sort -/

/-- One pass moves a largest element behind the others. -/
theorem bubblePass_split (hash : Nat → Int16) {i : Nat} {a : List Nat} (ha : a.length = i + 1)
    (rest : List Nat) : ∃ front m, bubblePass hash i (a ++ rest) = front ++ m :: rest ∧
      (front ++ [m]).Perm a ∧ ∀ z ∈ a, hash z ≤ hash m := by
  induction i generalizing a with
  | zero =>
    rcases List.length_eq_one_iff.mp ha with ⟨x, rfl⟩
    exact ⟨[], x, rfl, List.Perm.refl _, fun z hz => List.mem_singleton.mp hz ▸ le_rfl⟩
  | succ i ih =>
    rcases a with _ | ⟨x, _ | ⟨y, t⟩⟩
    · cases ha
    · cases ha
    have ht : t.length + 1 = i + 1 := Nat.succ.inj ha
    simp only [List.cons_append, bubblePass]
    by_cases hlt : hash y < hash x
    · rcases ih (a := x :: t) ht with ⟨front, m, hpass, hperm, hmax⟩
      refine ⟨y :: front, m, ?_, ?_, ?_⟩
      · rw [if_pos hlt]
        exact congrArg (y :: ·) hpass
      · exact (hperm.cons y).trans (List.Perm.swap x y t)
      · intro z hz
        rcases List.mem_cons.mp hz with rfl | hz
        · exact hmax z List.mem_cons_self
        rcases List.mem_cons.mp hz with rfl | hz
        · exact hlt.le.trans (hmax x List.mem_cons_self)
        · exact hmax z (List.mem_cons_of_mem x hz)
    · rcases ih (a := y :: t) ht with ⟨front, m, hpass, hperm, hmax⟩
      refine ⟨x :: front, m, ?_, hperm.cons x, ?_⟩
      · rw [if_neg hlt]
        exact congrArg (x :: ·) hpass
      · intro z hz
        rcases List.mem_cons.mp hz with rfl | hz
        · exact (le_of_not_gt hlt).trans (hmax y List.mem_cons_self)
        · exact hmax z hz

/-- **The sort orders the first elements by hash** and leaves the others. -/
theorem bubbleSort_sorts (hash : Nat → Int16) {i : Nat} {a : List Nat} (ha : a.length = i + 1)
    (rest : List Nat) : ∃ s, bubbleSort hash i (a ++ rest) = s ++ rest ∧ s.Perm a ∧
      s.Pairwise fun x y => hash x ≤ hash y := by
  induction i generalizing a rest with
  | zero =>
    rcases List.length_eq_one_iff.mp ha with ⟨x, rfl⟩
    exact ⟨[x], rfl, List.Perm.refl _, List.pairwise_singleton _ x⟩
  | succ i ih =>
    rcases bubblePass_split hash ha rest with ⟨front, m, hpass, hperm, hmax⟩
    have hfront : front.length = i + 1 := by
      have hlen := hperm.length_eq
      rw [List.length_append, List.length_singleton, ha] at hlen
      exact Nat.succ.inj hlen
    rcases ih hfront (m :: rest) with ⟨s, hsort, hs, hsorted⟩
    refine ⟨s ++ [m], ?_, (hs.append_right [m]).trans hperm, ?_⟩
    · rw [bubbleSort, hpass, hsort, List.append_assoc]
      rfl
    · rw [List.pairwise_append]
      refine ⟨hsorted, List.pairwise_singleton _ m, ?_⟩
      intro x hx y hy
      rw [List.mem_singleton.mp hy]
      apply hmax
      exact hperm.subset (List.mem_append_left [m] (hs.subset hx))

/-! ## 2. The hashes of the table -/

/-- No two names have one hash; and a part that a name begins with has not the hash of
    the whole. -/
theorem httpHeaderFields_hashes :
    (httpHeaderFields.map fun f => f.str.foldl hashByte 0).Nodup ∧
      ∀ f ∈ httpHeaderFields, f.str ≠ [] ∧ NUL ∉ f.str ∧ ∀ w ∈ f.str.inits,
        w.foldl hashByte 0 = f.str.foldl hashByte 0 → w.length = f.str.length := by
  decide +kernel

theorem inTable_ofNat {i : Nat} (h : i < httpHeaderFields.length) : InTable (Int16.ofNat i) ∧
    (Int16.ofNat i).toInt.toNat = i := by
  have hlen : httpHeaderFields.length = 87 := rfl
  have hint : (Int16.ofNat i).toInt = i := Int16.toInt_ofNat_of_lt (by omega)
  rw [InTable, hint, Int.toNat_natCast]
  exact ⟨⟨Int.natCast_nonneg i, h⟩, rfl⟩

theorem InTable.ofNat {id : BtKey} (h : InTable id) : Int16.ofNat id.toInt.toNat = id := by
  have hlen : httpHeaderFields.length = 87 := rfl
  have hlt := h.2
  apply Int16.toInt.inj
  rw [Int16.toInt_ofNat_of_lt (by omega)]
  exact Int.toNat_of_nonneg h.1

theorem httpHeaderField_ofNat {i : Nat} (h : i < httpHeaderFields.length) :
    httpHeaderFields[i]? = some (httpHeaderField (Int16.ofNat i)) := by
  rw [httpHeaderField, (inTable_ofNat h).2, List.getElem?_eq_getElem h]
  rfl

theorem fieldHash_eq {i : Nat} (h : i < httpHeaderFields.length) :
    fieldHash i = (httpHeaderField (Int16.ofNat i)).str.foldl hashByte 0 := by
  rw [fieldHash, httpHeaderField_ofNat h]

theorem fieldHash_inj {i j : Nat} (hi : i < httpHeaderFields.length)
    (hj : j < httpHeaderFields.length) (h : fieldHash i = fieldHash j) : i = j := by
  have hget : ∀ {k}, k < httpHeaderFields.length →
      (httpHeaderFields.map fun f => f.str.foldl hashByte 0)[k]? = some (fieldHash k) := by
    intro k hk
    rw [List.getElem?_map, httpHeaderField_ofNat hk, fieldHash_eq hk]
    rfl
  have hlt : i < (httpHeaderFields.map fun f => f.str.foldl hashByte 0).length := by
    rw [List.length_map]
    exact hi
  exact (List.getElem?_inj hlt httpHeaderFields_hashes.1).mp (by rw [hget hi, hget hj, h])

/-- **The index is sorted.** -/
theorem httpHeaderFieldsIndex_sorted :
    httpHeaderFieldsIndex.Perm (List.range httpHeaderFields.length) ∧
      httpHeaderFieldsIndex.Pairwise fun i j => fieldHash i < fieldHash j := by
  have hlen : (List.range httpHeaderFields.length).length = httpHeaderFields.length - 1 + 1 := rfl
  rcases bubbleSort_sorts fieldHash hlen [] with ⟨s, hsort, hperm, hsorted⟩
  rw [List.append_nil, List.append_nil] at hsort
  have hindex : httpHeaderFieldsIndex = s := hsort
  rw [hindex]
  refine ⟨hperm, ?_⟩
  have hnodup : s.Nodup := hperm.nodup_iff.mpr List.nodup_range
  refine (hsorted.and hnodup).imp_of_mem ?_
  rintro i j hi hj ⟨hle, hne⟩
  have hrange : ∀ {k}, k ∈ s → k < httpHeaderFields.length := fun hk =>
    List.mem_range.mp (hperm.subset hk)
  exact lt_of_le_of_ne hle fun h => hne (fieldHash_inj (hrange hi) (hrange hj) h)

/-! ## 3. The search -/

theorem getD_eq_some {answer : Option (Option Nat)} {i : Nat} :
    answer.getD none = some i ↔ answer = some (some i) := by
  cases answer <;> simp

theorem httpHeaderFieldsIndex_getD (n : Nat) :
    httpHeaderFieldsIndex.getD n 0 < httpHeaderFields.length := by
  rw [List.getD_eq_getElem?_getD]
  cases hget : httpHeaderFieldsIndex[n]? with
  | none => exact Nat.zero_lt_succ _
  | some i =>
    have hmem := httpHeaderFieldsIndex_sorted.1.subset (List.mem_of_getElem? hget)
    exact List.mem_range.mp hmem

theorem searchLoop_some {hash : Int16} {same : Nat → Bool} {rounds : Nat} {low high : Int} {i : Nat}
    (h : searchLoop hash same rounds low high = some (some i)) :
    i < httpHeaderFields.length ∧ hash = fieldHash i ∧ same i = true := by
  induction rounds generalizing low high with
  | zero =>
    simp only [searchLoop] at h
    split_ifs at h
    cases h
  | succ rounds ih =>
    simp only [searchLoop] at h
    split_ifs at h with hbounds heq hsame hlt
    · cases h
    · obtain rfl := Option.some.inj (Option.some.inj h)
      exact ⟨httpHeaderFieldsIndex_getD _, heq, hsame⟩
    · cases h
    · exact ih h
    · exact ih h

/-- **The search comes to an answer**: each round halves what is left of the index. -/
theorem searchLoop_ends {hash : Int16} {same : Nat → Bool} {rounds : Nat} {low high : Int}
    (h : high + 1 - low < 2 ^ rounds) :
    ∃ answer, searchLoop hash same rounds low high = some answer := by
  induction rounds generalizing low high with
  | zero =>
    have hempty : high < low := by
      rw [pow_zero] at h
      omega
    exact ⟨none, if_pos hempty⟩
  | succ rounds ih =>
    rw [pow_succ] at h
    simp only [searchLoop]
    split_ifs with hbounds heq hsame hlt
    · exact ⟨none, rfl⟩
    · exact ⟨_, rfl⟩
    · exact ⟨none, rfl⟩
    · exact ih (by omega)
    · exact ih (by omega)

/-- An answer stays the same when more rounds are allowed. -/
theorem searchLoop_mono {hash : Int16} {same : Nat → Bool} {rounds rounds' : Nat} {low high : Int}
    {answer : Option Nat} (h : searchLoop hash same rounds low high = some answer)
    (hle : rounds ≤ rounds') : searchLoop hash same rounds' low high = some answer := by
  induction rounds generalizing rounds' low high with
  | zero =>
    simp only [searchLoop] at h
    split_ifs at h with hempty
    cases rounds' <;> exact (if_pos hempty).trans h
  | succ rounds ih =>
    cases rounds' with
    | zero => cases hle
    | succ rounds' =>
      have hle' := Nat.le_of_succ_le_succ hle
      simp only [searchLoop] at h ⊢
      split_ifs at h ⊢ with hbounds heq hsame hlt
      · exact h
      · exact h
      · exact h
      · exact ih h hle'
      · exact ih h hle'

/-- **The search finds what is in the index**, when it is between the bounds. -/
theorem searchLoop_finds {same : Nat → Bool} {k i : Nat} (hk : httpHeaderFieldsIndex[k]? = some i)
    (hsame : same i = true) {rounds : Nat} {low high : Int} (hlow : 0 ≤ low) (hlk : low ≤ k)
    (hkh : (k : Int) ≤ high) (hhigh : high < httpHeaderFieldsIndex.length)
    (hrounds : high - low < rounds) :
    searchLoop (fieldHash i) same rounds low high = some (some i) := by
  induction rounds generalizing low high with
  | zero => omega
  | succ rounds ih =>
    rcases List.getElem?_eq_some_iff.mp hk with ⟨hklt, rfl⟩
    -- the middle is an index, and the order of the hashes tells on which side `k` is
    obtain ⟨m, hm⟩ : ∃ m : Nat, (low + high) / 2 = m :=
      ⟨((low + high) / 2).toNat, (Int.toNat_of_nonneg (by omega)).symm⟩
    have hmlt : m < httpHeaderFieldsIndex.length := by omega
    have hget : httpHeaderFieldsIndex.getD m 0 = httpHeaderFieldsIndex[m] := by
      rw [List.getD_eq_getElem?_getD, List.getElem?_eq_getElem hmlt, Option.getD_some]
    have hsorted := List.pairwise_iff_getElem.mp httpHeaderFieldsIndex_sorted.2
    simp only [searchLoop, hm, Int.toNat_natCast, hget]
    rw [if_neg (by omega)]
    rcases lt_trichotomy k m with hkm | rfl | hmk
    · have hlt := hsorted k m hklt hmlt hkm
      rw [if_neg hlt.ne, if_pos hlt]
      exact ih hlow hlk (by omega) (by omega) (by omega)
    · rw [if_pos rfl, if_pos hsame]
    · have hlt := hsorted m k hmlt hklt hmk
      rw [if_neg hlt.ne', if_neg hlt.not_gt]
      exact ih (by omega) (by omega) hkh hhigh (by omega)

/-- Every entry of the table is in the index. -/
theorem searchLoop_field {same : Nat → Bool} {i : Nat} (hi : i < httpHeaderFields.length)
    (hsame : same i = true) :
    searchLoop (fieldHash i) same (httpHeaderFields.length + 1) 0 (httpHeaderFields.length - 1) =
      some (some i) := by
  have hmem : i ∈ httpHeaderFieldsIndex :=
    httpHeaderFieldsIndex_sorted.1.symm.subset (List.mem_range.mpr hi)
  have hindex : httpHeaderFieldsIndex.length = httpHeaderFields.length := by
    rw [httpHeaderFieldsIndex_sorted.1.length_eq, List.length_range]
  obtain ⟨k, hk⟩ := List.mem_iff_getElem?.mp hmem
  have hklt := (List.getElem?_eq_some_iff.mp hk).1
  exact searchLoop_finds hk hsame le_rfl (by omega) (by omega) (by omega) (by omega)

/-! ## 4. Names -/

/-- The same name, in upper or lower case. -/
def SameName (name field : List UInt8) : Prop := name.map tolower = field.map tolower

theorem SameName.hash {name field : List UInt8} (h : SameName name field) (hash : Int16) :
    name.foldl hashByte hash = field.foldl hashByte hash := by
  induction name generalizing field hash with
  | nil =>
    have hnil : field = [] := List.map_eq_nil_iff.mp h.symm
    rw [hnil]
  | cons c name ih =>
    cases field with
    | nil => cases h
    | cons d field =>
      rcases List.cons.inj h with ⟨hc, hrest⟩
      have hbyte : hashByte hash c = hashByte hash d := by
        simp only [hashByte, tolowerChar, hc]
      rw [List.foldl_cons, List.foldl_cons, hbyte]
      exact ih hrest _

/-- No two names of the table are the same but for the case. -/
theorem SameName.field_inj {id id' : BtKey} (hid : InTable id) (hid' : InTable id')
    (h : SameName (httpHeaderField id).str (httpHeaderField id').str) : id = id' := by
  have hhash := h.hash 0
  rw [← hid.ofNat, ← hid'.ofNat, ← fieldHash_eq hid.2, ← fieldHash_eq hid'.2] at hhash
  rw [← hid.ofNat, fieldHash_inj hid.2 hid'.2 hhash, hid'.ofNat]

theorem tolower_ne_nul {c : UInt8} (h : c ≠ NUL) : tolower c ≠ NUL := by
  unfold tolower
  split
  next hc =>
    have hlo : (65 : UInt8).toNat ≤ c.toNat := UInt8.le_iff_toNat_le.mp hc.1
    have hhi : c.toNat ≤ (90 : UInt8).toNat := UInt8.le_iff_toNat_le.mp hc.2
    have hlo' : 65 ≤ c.toNat := hlo
    have hhi' : c.toNat ≤ 90 := hhi
    intro h0
    have hsum : (c.toNat + 32) % 256 = 0 := by
      have := congrArg UInt8.toNat h0
      rwa [UInt8.toNat_add] at this
    omega
  next => exact h

/-- `strncasecmp` with the length of the name finds the fields that begin with it. -/
theorem strncasecmpEq_length {name : List UInt8} (hn : NUL ∉ name) (rest field : List UInt8) :
    strncasecmpEq (name ++ rest) field name.length = true ↔
      SameName name (field.take name.length) := by
  induction name generalizing field with
  | nil => exact iff_of_true rfl rfl
  | cons c name ih =>
    rw [List.mem_cons, not_or] at hn
    have hc : tolower c ≠ NUL := tolower_ne_nul (Ne.symm hn.1)
    have hstep : strncasecmpEq (c :: name ++ rest) field (c :: name).length =
        (tolower c == tolower (peek field) &&
          (tolower c == NUL || strncasecmpEq (name ++ rest) field.tail name.length)) := rfl
    rw [hstep, beq_false_of_ne hc, Bool.false_or, Bool.and_eq_true, beq_iff_eq, ih hn.2]
    cases field with
    | nil =>
      have hnul : tolower (peek []) = NUL := rfl
      rw [hnul]
      exact iff_of_false (fun h => hc h.1) fun h => nomatch h
    | cons d field => exact List.cons_eq_cons.symm

/-- What is found has the hash of the target and passes the comparison, and the search misses
    nothing that does. -/
theorem httpHeaderBinaryNSearch_some_iff {target : List UInt8} {len : Int} {i : Nat} :
    httpHeaderBinaryNSearch target len = some i ↔
      i < httpHeaderFields.length ∧ httpHeaderNHash target len = fieldHash i ∧
        strncasecmpEq target (httpHeaderField (Int16.ofNat i)).str len.toNat = true := by
  rw [httpHeaderBinaryNSearch, getD_eq_some]
  refine ⟨searchLoop_some, ?_⟩
  rintro ⟨hi, hhash, hsame⟩
  rw [hhash]
  exact searchLoop_field hi hsame

theorem httpHeaderNHash_append (target rest : List UInt8) :
    httpHeaderNHash (target ++ rest) target.length = target.foldl hashByte 0 := by
  rw [httpHeaderNHash, Int.toNat_natCast, List.take_left]

theorem SameName.length {name field : List UInt8} (h : SameName name field) :
    name.length = field.length := by
  have hmap := congrArg List.length h
  rwa [List.length_map, List.length_map] at hmap

/-- **The search finds exactly the names of the table**, in upper or lower case. -/
theorem httpHeaderBinaryNSearch_iff {name : List UInt8} (hn : NUL ∉ name) (rest : List UInt8)
    (i : Nat) :
    httpHeaderBinaryNSearch (name ++ rest) name.length = some i ↔
      i < httpHeaderFields.length ∧ SameName name (httpHeaderField (Int16.ofNat i)).str := by
  rw [httpHeaderBinaryNSearch_some_iff, httpHeaderNHash_append, Int.toNat_natCast,
    strncasecmpEq_length hn]
  refine and_congr_right fun hi => ?_
  constructor
  · rintro ⟨heq, hname⟩
    -- the name agrees with a part of the field, and its hash with that of the field
    rw [hname.hash, fieldHash_eq hi] at heq
    have hmem := httpHeaderField_mem (inTable_ofNat hi).1
    have hpart := (httpHeaderFields_hashes.2 _ hmem).2.2 _
      ((List.mem_inits _ _).mpr (List.take_prefix _ _)) heq
    rwa [(List.take_prefix _ _).eq_of_length hpart] at hname
  · intro hname
    refine ⟨(hname.hash 0).trans (fieldHash_eq hi).symm, ?_⟩
    rwa [hname.length, List.take_length]

/-! ## 5. Targets with a `NUL` -/

theorem tolower_eq_nul_iff (c : UInt8) : tolower c = NUL ↔ c = NUL := by
  refine ⟨fun h => ?_, fun h => by rw [h]; rfl⟩
  by_contra hc
  exact tolower_ne_nul hc h

/-- The comparison ends at the `NUL`, and what is in front of it must be the whole field. -/
theorem strncasecmpEq_nul {name field : List UInt8} (hn : NUL ∉ name) (hf : NUL ∉ field)
    (rest : List UInt8) (k : Nat) :
    strncasecmpEq (name ++ NUL :: rest) field (name.length + (k + 1)) = true ↔
      SameName name field := by
  induction name generalizing field with
  | nil =>
    have hstep : strncasecmpEq (NUL :: rest) field (k + 1) = (NUL == tolower (peek field)) := by
      have hnul : tolower NUL = NUL := rfl
      rw [strncasecmpEq, sameUpTo, peek, List.headD_cons, hnul, beq_self_eq_true, Bool.true_or,
        Bool.and_true]
    rw [List.nil_append, List.length_nil, Nat.zero_add, hstep, beq_iff_eq, eq_comm,
      tolower_eq_nul_iff]
    cases field with
    | nil => exact iff_of_true rfl rfl
    | cons d field =>
      refine iff_of_false ?_ fun h => nomatch h
      rintro (rfl : d = NUL)
      exact hf List.mem_cons_self
  | cons c name ih =>
    rw [List.mem_cons, not_or] at hn
    have hc : tolower c ≠ NUL := tolower_ne_nul (Ne.symm hn.1)
    have hlen : (c :: name).length + (k + 1) = name.length + (k + 1) + 1 := by
      rw [List.length_cons]
      omega
    have hstep : strncasecmpEq (c :: name ++ NUL :: rest) field (name.length + (k + 1) + 1) =
        (tolower c == tolower (peek field) && (tolower c == NUL ||
          strncasecmpEq (name ++ NUL :: rest) field.tail (name.length + (k + 1)))) := rfl
    rw [hlen, hstep, beq_false_of_ne hc, Bool.false_or, Bool.and_eq_true, beq_iff_eq]
    cases field with
    | nil =>
      have hnul : tolower (peek []) = NUL := rfl
      rw [hnul]
      exact iff_of_false (fun h => hc h.1) fun h => nomatch h
    | cons d field =>
      rw [List.tail_cons, ih hn.2 fun hmem => hf (List.mem_cons_of_mem d hmem)]
      exact List.cons_eq_cons.symm

/-- A name of the table, then a `NUL` and other bytes, which together leave the hash of the name
    as it was. -/
def NulCollision (target : List UInt8) : Prop :=
  ∃ name rest i, target = name ++ NUL :: rest ∧ i < httpHeaderFields.length ∧
    SameName name (httpHeaderField (Int16.ofNat i)).str ∧ target.foldl hashByte 0 = fieldHash i

/-- The search answers with the entry that the target names, and with `none` if there is none;
    it does not matter what is behind the target. -/
def FoundExactly (target : List UInt8) : Prop :=
  ∀ rest, (∀ i, httpHeaderBinaryNSearch (target ++ rest) target.length = some i ↔
      i < httpHeaderFields.length ∧ SameName target (httpHeaderField (Int16.ofNat i)).str) ∧
    ((∀ i < httpHeaderFields.length, ¬ SameName target (httpHeaderField (Int16.ofNat i)).str) →
      httpHeaderBinaryNSearch (target ++ rest) target.length = none)

theorem foundExactly_iff (target : List UInt8) : FoundExactly target ↔
    ∀ rest i, httpHeaderBinaryNSearch (target ++ rest) target.length = some i ↔
      i < httpHeaderFields.length ∧ SameName target (httpHeaderField (Int16.ofNat i)).str := by
  refine ⟨fun h rest => (h rest).1, fun h rest => ⟨h rest, ?_⟩⟩
  intro hnone
  by_contra hsome
  obtain ⟨i, hi⟩ := Option.ne_none_iff_exists'.mp hsome
  obtain ⟨hlt, hname⟩ := (h rest i).mp hi
  exact hnone i hlt hname

theorem nul_not_mem_field {i : Nat} (h : i < httpHeaderFields.length) :
    NUL ∉ (httpHeaderField (Int16.ofNat i)).str :=
  (httpHeaderFields_hashes.2 _ (httpHeaderField_mem (inTable_ofNat h).1)).2.1

/-- No target with a `NUL` is a name of the table. -/
theorem SameName.nul_not_mem {name field : List UInt8} (h : SameName name field)
    (hf : NUL ∉ field) : NUL ∉ name := by
  intro hmem
  have hlow : tolower NUL ∈ field.map tolower := by
    rw [← h]
    exact List.mem_map_of_mem hmem
  obtain ⟨c, hc, heq⟩ := List.mem_map.mp hlow
  have hnul : c = NUL := (tolower_eq_nul_iff c).mp heq
  rw [hnul] at hc
  exact hf hc

/-- A target with a `NUL` is compared up to there, and its hash is that of all its bytes. -/
theorem httpHeaderBinaryNSearch_cut {name : List UInt8} (hn : NUL ∉ name) (rest rest' : List UInt8)
    (i : Nat) :
    httpHeaderBinaryNSearch (name ++ NUL :: rest ++ rest') (name ++ NUL :: rest).length = some i ↔
      i < httpHeaderFields.length ∧ (name ++ NUL :: rest).foldl hashByte 0 = fieldHash i ∧
        SameName name (httpHeaderField (Int16.ofNat i)).str := by
  rw [httpHeaderBinaryNSearch_some_iff, httpHeaderNHash_append, Int.toNat_natCast,
    List.length_append, List.length_cons, List.append_assoc, List.cons_append]
  refine and_congr_right fun hi => and_congr_right fun _ => ?_
  exact strncasecmpEq_nul hn (nul_not_mem_field hi) _ _

/-- **Look-up is exact** but for the targets that are a name, a `NUL` and bytes that keep the
    hash. -/
theorem httpHeaderBinaryNSearch_exact (target : List UInt8) :
    FoundExactly target ↔ ¬ NulCollision target := by
  rw [foundExactly_iff]
  by_cases hnul : NUL ∈ target
  · obtain ⟨name, rest, rfl, hname⟩ := List.eq_append_cons_of_mem hnul
    -- such a target is no name, so nothing should be found
    have hnone : ∀ i < httpHeaderFields.length,
        ¬ SameName (name ++ NUL :: rest) (httpHeaderField (Int16.ofNat i)).str :=
      fun i hi hsame => hsame.nul_not_mem (nul_not_mem_field hi) hnul
    have hfound := httpHeaderBinaryNSearch_cut hname rest
    constructor
    · rintro h ⟨name', rest', i, heq, hi, hsame, hhash⟩
      obtain rfl : name = name' := by
        have hname' := hsame.nul_not_mem (nul_not_mem_field hi)
        exact (first_unique hname hname' heq).1
      obtain ⟨-, hwhole⟩ := (h [] i).mp ((hfound [] i).mpr ⟨hi, hhash, hsame⟩)
      exact hnone i hi hwhole
    · intro h rest' i
      rw [hfound]
      constructor
      · rintro ⟨hi, hhash, hsame⟩
        exact absurd ⟨name, rest, i, rfl, hi, hsame, hhash⟩ h
      · rintro ⟨hi, hsame⟩
        exact absurd hsame (hnone i hi)
  · refine iff_of_true (fun rest i => httpHeaderBinaryNSearch_iff hnul rest i) ?_
    rintro ⟨name, rest, i, rfl, -⟩
    exact hnul (List.mem_append_right name List.mem_cons_self)

/-- The field that a target stands for: up to its first `NUL` it is the name, and its bytes have
    the hash of the name, as they have when there is no `NUL` among them. -/
def StandsFor (target : List UInt8) (id : BtKey) : Prop :=
  InTable id ∧ SameName (cstr target) (httpHeaderField id).str ∧
    target.foldl hashByte 0 = (httpHeaderField id).str.foldl hashByte 0

instance standsForDecidable (target : List UInt8) : DecidablePred (StandsFor target) := fun _ =>
  inferInstanceAs (Decidable (_ ∧ List.map tolower _ = List.map tolower _ ∧ _))

theorem StandsFor.unique {target : List UInt8} {id id' : BtKey} (h : StandsFor target id)
    (h' : StandsFor target id') : id = id' :=
  SameName.field_inj h.1 h'.1 (Eq.trans (Eq.symm h.2.1) h'.2.1)

theorem not_standsFor_nil (id : BtKey) : ¬StandsFor [] id := by
  rintro ⟨hid, hsame, -⟩
  have hne := (httpHeaderFields_hashes.2 _ (httpHeaderField_mem hid)).1
  exact hne (List.length_eq_zero_iff.mp (SameName.length hsame).symm)

/-- **Every target**: the search answers with the field that it stands for. -/
theorem httpHeaderBinaryNSearch_standsFor (target rest : List UInt8) (i : Nat) :
    httpHeaderBinaryNSearch (target ++ rest) target.length = some i ↔
      i < httpHeaderFields.length ∧ StandsFor target (Int16.ofNat i) := by
  by_cases hnul : NUL ∈ target
  · obtain ⟨name, rest', rfl, hname⟩ := List.eq_append_cons_of_mem hnul
    rw [httpHeaderBinaryNSearch_cut hname, StandsFor, cstr_append_nul hname]
    refine and_congr_right fun hi => ?_
    rw [fieldHash_eq hi]
    exact ⟨fun h => ⟨(inTable_ofNat hi).1, h.2, h.1⟩, fun h => ⟨h.2.2, h.2.1⟩⟩
  · rw [httpHeaderBinaryNSearch_iff hnul, StandsFor, cstr_eq_self hnul]
    refine and_congr_right fun hi => ?_
    exact ⟨fun h => ⟨(inTable_ofNat hi).1, h, h.hash 0⟩, fun h => h.2.1⟩

/-- Two `NUL`s behind the name of a field do not change the hash: the six bytes are taken for
    the four of the name. -/
theorem httpHeaderBinaryNSearch_nul : ¬ FoundExactly (bytes "Host\x00\x00") := by
  intro h
  obtain ⟨hi, hname⟩ := (((foundExactly_iff _).mp h) [] 41).mp (by decide +kernel)
  exact absurd (SameName.length hname) (by decide +kernel)

/-! ## 6. Strings -/

/-- `strcasecmp(p, q) == 0`. -/
def strcasecmpEq (p q : List UInt8) : Bool := (cstr p).map tolower == (cstr q).map tolower

/-- `http_header_hash`. -/
def httpHeaderHash (str : List UInt8) : Int16 := (cstr str).foldl hashByte 0

/-- `http_header_binary_search`; `none` for `-1`. -/
def httpHeaderBinarySearch (target : List UInt8) : Option Nat :=
  (searchLoop (httpHeaderHash target)
    (fun i => strcasecmpEq target (httpHeaderField (Int16.ofNat i)).str)
    (httpHeaderFields.length + 1) 0 (httpHeaderFields.length - 1)).getD none

theorem strcasecmpEq_iff {target : List UInt8} {i : Nat} (hi : i < httpHeaderFields.length) :
    strcasecmpEq target (httpHeaderField (Int16.ofNat i)).str = true ↔
      SameName (cstr target) (httpHeaderField (Int16.ofNat i)).str := by
  rw [strcasecmpEq, beq_iff_eq, cstr_eq_self (nul_not_mem_field hi), SameName]

/-- The search for a string finds the names of the table. -/
theorem httpHeaderBinarySearch_iff {target : List UInt8} {i : Nat} :
    httpHeaderBinarySearch target = some i ↔
      i < httpHeaderFields.length ∧
        SameName (cstr target) (httpHeaderField (Int16.ofNat i)).str := by
  rw [httpHeaderBinarySearch, getD_eq_some]
  constructor
  · intro h
    obtain ⟨hi, -, hsame⟩ := searchLoop_some h
    exact ⟨hi, (strcasecmpEq_iff hi).mp hsame⟩
  · rintro ⟨hi, hname⟩
    have hhash : httpHeaderHash target = fieldHash i := (hname.hash 0).trans (fieldHash_eq hi).symm
    rw [hhash]
    exact searchLoop_field hi ((strcasecmpEq_iff hi).mpr hname)

/-- **The binary search is a linear one.**  For every string it answers the only entry of the
    table that has this name, or that there is none; it comes to this answer when it has looked at
    seven hashes at most; and the search that gets the length of the string answers the same. -/
theorem httpHeaderBinarySearch_linear (target : List UInt8) :
    httpHeaderBinarySearch target = (List.range httpHeaderFields.length).find? (fun i =>
      strcasecmpEq target (httpHeaderField (Int16.ofNat i)).str) ∧
    searchLoop (httpHeaderHash target)
      (fun i => strcasecmpEq target (httpHeaderField (Int16.ofNat i)).str) 7 0
      (httpHeaderFields.length - 1) = some (httpHeaderBinarySearch target) ∧
    httpHeaderBinarySearch target = httpHeaderBinaryNSearch target (cstr target).length := by
  have hlen : httpHeaderFields.length = 87 := rfl
  refine ⟨?_, ?_, ?_⟩
  · ext i
    rw [httpHeaderBinarySearch_iff, List.find?_range_eq_some, List.mem_range]
    constructor
    · rintro ⟨hi, hname⟩
      refine ⟨(strcasecmpEq_iff hi).mpr hname, hi, ?_⟩
      intro j hj
      have hjlt := hj.trans hi
      -- two entries with one name are the same entry
      have hother : ¬strcasecmpEq target (httpHeaderField (Int16.ofNat j)).str = true := by
        rw [strcasecmpEq_iff hjlt]
        intro hname'
        have hid := SameName.field_inj (inTable_ofNat hjlt).1 (inTable_ofNat hi).1
          (hname'.symm.trans hname)
        have heq := congrArg (fun id : BtKey => id.toInt.toNat) hid
        simp only [(inTable_ofNat hjlt).2, (inTable_ofNat hi).2] at heq
        omega
      rw [Bool.eq_false_iff.mpr hother]
      rfl
    · rintro ⟨hsame, hi, -⟩
      exact ⟨hi, (strcasecmpEq_iff hi).mp hsame⟩
  · let same (i : Nat) : Bool := strcasecmpEq target (httpHeaderField (Int16.ofNat i)).str
    obtain ⟨answer, hanswer⟩ : ∃ answer, searchLoop (httpHeaderHash target) same 7 0
        (httpHeaderFields.length - 1) = some answer := by
      apply searchLoop_ends
      rw [hlen]
      decide
    have hmore : searchLoop (httpHeaderHash target) same (httpHeaderFields.length + 1) 0
        (httpHeaderFields.length - 1) = some answer := by
      apply searchLoop_mono hanswer
      rw [hlen]
      decide
    rw [httpHeaderBinarySearch, hmore]
    exact hanswer
  · have hnul : NUL ∉ cstr target := by
      intro hmem
      exact absurd (List.mem_takeWhile_imp hmem) (by decide)
    obtain ⟨rest, hrest⟩ : cstr target <+: target := List.takeWhile_prefix _
    ext i
    have hn := httpHeaderBinaryNSearch_iff hnul rest i
    rw [hrest] at hn
    rw [httpHeaderBinarySearch_iff, hn]

end OServer
