/-
  OServer/Lib/AvlMap.lean
  =======================
  **What an AVL tree is for: a sorted map of small height.**

  A list of entries in strict order of their keys is the plain form of a map.
  Read from left to right a search tree is such a list, and its operations are
  those of the list.  How deep they go is bounded by the number of entries: a
  balanced tree of height `h` has at least `fib (h + 2) - 1` elements.

    * `insert_entries`         — insertion is insertion into the sorted list;
    * `find_entries`           — the search path finds what the list holds;
    * `Balanced.height_le`     — fewer than `fib (n + 3) - 1` elements fit in `n`
                                 levels.
-/
import OServer.Lib.Avl
import Mathlib.Data.Nat.Fib.Basic

namespace Avl

variable {α κ : Type*} [LinearOrder κ]

/-! ## 1. Sorted lists of entries -/

/-- Insertion into a list in strict order of the keys; an entry that has the key
    already stays. -/
def insertSorted (k : κ) (a : α) : List (κ × α) → List (κ × α)
  | [] => [(k, a)]
  | e :: es =>
      if e.1 < k then e :: insertSorted k a es
      else if e.1 = k then e :: es
      else (k, a) :: e :: es

/-- The entry takes its place after the smaller ones. -/
theorem insertSorted_append {k : κ} (a : α) {es fs : List (κ × α)} (hes : ∀ e ∈ es, e.1 < k)
    (hfs : ∀ e ∈ fs, k < e.1) : insertSorted k a (es ++ fs) = es ++ (k, a) :: fs := by
  induction es with
  | nil =>
    cases fs with
    | nil => rfl
    | cons e fs =>
      have hke : k < e.1 := hfs e List.mem_cons_self
      rw [List.nil_append, insertSorted, if_neg (not_lt_of_gt hke), if_neg hke.ne']
      rfl
  | cons e es ih =>
    have hek : e.1 < k := hes e List.mem_cons_self
    rw [List.cons_append, insertSorted, if_pos hek, ih fun e' he' => hes e' (List.mem_cons_of_mem e he')]
    rfl

/-- Where the key is taken, nothing happens. -/
theorem insertSorted_mem {k : κ} (a : α) {es : List (κ × α)}
    (hes : es.Pairwise fun e e' => e.1 < e'.1) (hk : ∃ e ∈ es, e.1 = k) :
    insertSorted k a es = es := by
  induction es with
  | nil =>
    obtain ⟨e, he, -⟩ := hk
    exact absurd he List.not_mem_nil
  | cons e es ih =>
    rcases List.pairwise_cons.mp hes with ⟨hlt, hes⟩
    obtain ⟨e', he', rfl⟩ := hk
    rcases List.mem_cons.mp he' with rfl | he'
    · rw [insertSorted, if_neg (lt_irrefl _), if_pos rfl]
    · rw [insertSorted, if_pos (hlt e' he'), ih hes ⟨e', he', rfl⟩]

namespace AvlTree

variable (key : α → κ)

/-- The tree as a list of entries. -/
def entries (t : AvlTree α) : List (κ × α) := t.toList.map fun a => (key a, a)

/-! ## 2. Trees as sorted lists -/

omit [LinearOrder κ] in
variable {key} in
theorem mem_entries {t : AvlTree α} {k : κ} {a : α} :
    (k, a) ∈ t.entries key ↔ a ∈ t.toList ∧ key a = k := by
  simp only [entries, List.mem_map, Prod.mk.injEq]
  constructor
  · rintro ⟨b, hb, hk, rfl⟩
    exact ⟨hb, hk⟩
  · rintro ⟨ha, hk⟩
    exact ⟨a, ha, hk, rfl⟩

variable {key} in
theorem Ordered.entries_pairwise {t : AvlTree α} (ht : t.Ordered key) :
    (t.entries key).Pairwise fun e e' => e.1 < e'.1 :=
  List.pairwise_map.mpr ((ordered_iff_pairwise key t).mp ht)

theorem insert_entries (x : α) {t : AvlTree α} (ht : t.Ordered key) (hb : t.Balanced) :
    (insert key x t).1.entries key = insertSorted (key x) x (t.entries key) := by
  by_cases hx : (insert key x t).2 = .exist
  · obtain ⟨a, ha, hkey⟩ := (insert_eq_exist_iff key x ht).mp hx
    have hmem : ∃ e ∈ t.entries key, e.1 = key x := ⟨_, mem_entries.mpr ⟨ha, rfl⟩, hkey⟩
    rw [insert_exist_eq key x hb hx, insertSorted_mem x ht.entries_pairwise hmem]
  · obtain ⟨l₁, l₂, h₁, h₂, hlo, hhi⟩ := insert_toList key x ht hx
    rw [entries, entries, h₁, h₂, List.map_append, List.map_append, insertSorted_append]
    · rfl
    · exact List.forall_mem_map.mpr hlo
    · exact List.forall_mem_map.mpr hhi

theorem find_entries (k : κ) {t : AvlTree α} (ht : t.Ordered key) :
    (t.entries key).find? (fun e => e.1 = k) = (find key k t).map fun a => (key a, a) := by
  cases hf : find key k t with
  | none =>
    rw [Option.map_none, List.find?_eq_none]
    rintro ⟨k', a⟩ ha hk
    obtain ⟨hmem, hkey⟩ := mem_entries.mp ha
    have hfound := (find_eq_some_iff key ht k a).mpr ⟨hmem, hkey.trans (of_decide_eq_true hk)⟩
    exact absurd (hf.symm.trans hfound) nofun
  | some a =>
    obtain ⟨hmem, hkey⟩ := (find_eq_some_iff key ht k a).mp hf
    obtain ⟨e, he⟩ : ∃ e, (t.entries key).find? (fun e => e.1 = k) = some e := by
      rw [← Option.isSome_iff_exists, List.find?_isSome]
      exact ⟨_, mem_entries.mpr ⟨hmem, rfl⟩, decide_eq_true hkey⟩
    obtain ⟨hmem', hkey'⟩ := mem_entries.mp (List.mem_of_find?_eq_some he)
    have hk' : e.1 = k := by simpa using List.find?_some he
    -- the element with a key is unique, since the search path ends at one
    have hsame : some a = some e.2 :=
      hf.symm.trans ((find_eq_some_iff key ht k e.2).mpr ⟨hmem', hkey'.trans hk'⟩)
    obtain rfl := Option.some.inj hsame
    rw [he, Option.map_some, hkey']

/-! ## 3. Height -/

omit [LinearOrder κ]

/-- **The sparsest balanced trees are the Fibonacci trees.** -/
theorem Balanced.fib_height_le {t : AvlTree α} (h : t.Balanced) :
    Nat.fib (t.height + 2) ≤ t.toList.length + 1 := by
  induction t with
  | nil => exact le_rfl
  | node l a bf r ihl ihr =>
    obtain ⟨hl, hr, hbf, hlo, hhi⟩ := h
    have hlen : (AvlTree.node l a bf r).toList.length = l.toList.length + (r.toList.length + 1) := by
      simp
    rw [height_node, hlen]
    -- the higher subtree has the full height, the other one at most a level less
    rcases le_total l.height r.height with hle | hle
    · have hlow : Nat.fib (r.height + 1) ≤ Nat.fib (l.height + 2) := Nat.fib_mono (by omega)
      have hfl := hlow.trans (ihl hl)
      have hfr := ihr hr
      have hfib : Nat.fib (r.height + 1 + 2) = Nat.fib (r.height + 1) + Nat.fib (r.height + 2) :=
        Nat.fib_add_two
      rw [max_eq_right hle, hfib]
      omega
    · have hlow : Nat.fib (l.height + 1) ≤ Nat.fib (r.height + 2) := Nat.fib_mono (by omega)
      have hfl := ihl hl
      have hfr := hlow.trans (ihr hr)
      have hfib : Nat.fib (l.height + 1 + 2) = Nat.fib (l.height + 1) + Nat.fib (l.height + 2) :=
        Nat.fib_add_two
      rw [max_eq_left hle, hfib]
      omega

theorem Balanced.height_le {t : AvlTree α} (h : t.Balanced) {n : Nat}
    (hn : t.toList.length + 1 < Nat.fib (n + 3)) : t.height ≤ n := by
  by_contra hlt
  have hmono : Nat.fib (n + 3) ≤ Nat.fib (t.height + 2) := Nat.fib_mono (by omega)
  exact absurd (hmono.trans h.fib_height_le) (not_le_of_gt hn)

end AvlTree

end Avl
