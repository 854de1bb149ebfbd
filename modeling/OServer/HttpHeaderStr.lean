/-
  OServer/HttpHeaderStr.lean
  ==========================
  **Writing a header collection (`http_header_to_str`).**

  One call threads the tree and goes on from the cursor for as long as whole lines
  fit.  The cursor is left at the last node written, not behind it:

    * `httpHeaderToStr_declared` — a buffer longer than all lines gets all of them;
    * `write_stops`              — otherwise the last line is clipped, or the cursor is left
      at a node whose line is written already.
-/
import OServer.HttpHeader
import Mathlib.Data.List.TakeWhile

namespace OServer

open CString

/-! ## 1. Model -/

/-- `http_header_str_info_t`, with the bytes in front of `buf` and the cursor of the
    collection. -/
structure HttpHeaderStrInfo where
  str : List UInt8
  size : Int
  traversePtr : Option Ptr
deriving DecidableEq, Repr

/-- The text of `"%s: %s\r\n"`. -/
def headerLine (id : BtKey) (h : HttpHeader) : List UInt8 :=
  (httpHeaderField id).str ++ bytes ": " ++ cstr h.value ++ [CR, LF]

def httpHeaderAccumelateStr (key : Ptr → BtKey) (header : Ptr → HttpHeader) :
    StopVisitor HttpHeaderStrInfo := fun h info =>
  match h with
  | none => ({ info with traversePtr := none }, true)
  | some p =>
      if (httpHeaderField (key p)).len + (header p).len.toInt + 4 ≤ info.size then
        let line := headerLine (key p) (header p)
        (⟨info.str ++ snprintf info.size.toNat line, info.size - line.length, some p⟩, false)
      else (info, true)

/-- `http_header_accumulate_len`. -/
def httpHeaderAccumulateLen (header : Ptr → HttpHeader) : Visitor Int :=
  Visitor.reading fun p e len =>
    len + ((httpHeaderField e.key).len + (header p).len.toInt + 4)

namespace HttpHeaderCollection

theorem threading_isSome (headers : HttpHeaderCollection) :
    (btreeBuildInOrderThreading headers.headerTree).isSome := by
  rcases headers.tree with ⟨v, hv⟩
  rcases threading_represents hv with ⟨t, hrun, -⟩
  rw [hrun]
  rfl

/-- The tree after `btree_build_in_order_threading`. -/
def threaded (headers : HttpHeaderCollection) : Btree :=
  (btreeBuildInOrderThreading headers.headerTree).get headers.threading_isSome

theorem threaded_represents {headers : HttpHeaderCollection} {v : BtreeView}
    (hv : headers.headerTree.Represents v) :
    headers.threaded.Represents v ∧ headers.threaded.ThreadsTo v.tree.toList ∧
      headers.threaded.root = headers.headerTree.root := by
  obtain ⟨t, hrun, hshape, hthreads, -⟩ :=
    threading_threaded hv.holds v.ordered.nodup hv.height_le
  have heq : headers.threaded = t := by simp [threaded, hrun]
  rw [heq]
  exact ⟨hv.sameShape hshape, hthreads, hshape.root⟩

/-- The traversal from the cursor: the nodes of a last part of the tree. -/
theorem threadTraverse_cursor {headers : HttpHeaderCollection} {v : BtreeView}
    (hv : headers.headerTree.Represents v) :
    ∃ xs ps, v.tree.toList = xs ++ ps ∧ (headers.traversePtr = none → ps = []) ∧
      (∀ p, headers.traversePtr = some p → p ∈ ps) ∧
      (headers.traversePtr = headers.headerTree.root → xs = []) ∧
      ∀ {σ : Type} (visit : StopVisitor σ) (s : σ),
        btreeThreadTraverse headers.threaded headers.traversePtr visit s =
          some (visitUntil visit ps s) := by
  rcases threaded_represents hv with ⟨hrep, hthreads, hroot⟩
  by_cases hcur : headers.traversePtr = headers.headerTree.root
  · refine ⟨[], v.tree.toList, rfl, fun h => ?_, fun p hp => ?_, fun _ => rfl, ?_⟩
    · have hnil := hv.holds.none_iff.mp (hcur.symm.trans h)
      rw [hnil]
      rfl
    · exact hv.linked_iff.mp (headers.cursor p hp)
    · intro σ visit s
      rw [hcur, ← hroot]
      exact btreeThreadTraverse_threaded hrep.holds hthreads hrep.length_le visit s
  cases hptr : headers.traversePtr with
  | none =>
    refine ⟨v.tree.toList, [], by simp, fun _ => rfl, ?_, fun h => absurd (hptr.trans h) hcur, ?_⟩
    · intro p hp
      cases hp
    · intro σ visit s
      rfl
  | some p =>
    have hp : p ∈ v.tree.toList := hv.linked_iff.mp (headers.cursor p hptr)
    obtain ⟨xs, ps, hlist, hmem, hrun⟩ :=
      btreeThreadTraverse_from hrep.holds hthreads hrep.length_le hp
    refine ⟨xs, ps, hlist, ?_, ?_, fun h => absurd (hptr.trans h) hcur, hrun⟩
    · intro h
      cases h
    · intro q hq
      obtain rfl := Option.some.inj hq
      exact hmem

theorem accumulate_isSome (headers : HttpHeaderCollection) (size : Int) :
    (btreeThreadTraverse headers.threaded headers.traversePtr
      (httpHeaderAccumelateStr (fun p => (headers.threaded.node p).key) headers.header)
      ⟨[], size, headers.traversePtr⟩).isSome := by
  rcases headers.tree with ⟨v, hv⟩
  obtain ⟨xs, ps, -, -, -, -, hrun⟩ := threadTraverse_cursor hv
  rw [hrun]
  rfl

/-- `info` and the cursor after `btree_thread_traverse`. -/
def accumulate (headers : HttpHeaderCollection) (size : Int) : HttpHeaderStrInfo :=
  (btreeThreadTraverse headers.threaded headers.traversePtr
    (httpHeaderAccumelateStr (fun p => (headers.threaded.node p).key) headers.header)
    ⟨[], size, headers.traversePtr⟩).get (headers.accumulate_isSome size)

theorem accumulate_eq {headers : HttpHeaderCollection} {v : BtreeView}
    (hv : headers.headerTree.Represents v) (size : Int) :
    ∃ xs ps, v.tree.toList = xs ++ ps ∧ (headers.traversePtr = none → ps = []) ∧
      (∀ p, headers.traversePtr = some p → p ∈ ps) ∧
      (headers.traversePtr = headers.headerTree.root → xs = []) ∧
      headers.accumulate size = visitUntil (httpHeaderAccumelateStr v.key headers.header) ps
        ⟨[], size, headers.traversePtr⟩ := by
  have hkey : (fun p => (headers.threaded.node p).key) = v.key :=
    funext (threaded_represents hv).1.key
  obtain ⟨xs, ps, hlist, hnone, hsome, hroot, hrun⟩ := threadTraverse_cursor hv
  refine ⟨xs, ps, hlist, hnone, hsome, hroot, ?_⟩
  simp only [accumulate, hkey, hrun, Option.get_some]

/-- The visitor on one node after the other: a line that fits is written, the first
    one that does not ends it. -/
theorem visitUntil_cons (key : Ptr → BtKey) (header : Ptr → HttpHeader) (p : Ptr) (ps : List Ptr)
    (info : HttpHeaderStrInfo) :
    visitUntil (httpHeaderAccumelateStr key header) (p :: ps) info =
      if (httpHeaderField (key p)).len + (header p).len.toInt + 4 ≤ info.size then
        visitUntil (httpHeaderAccumelateStr key header) ps
          ⟨info.str ++ snprintf info.size.toNat (headerLine (key p) (header p)),
            info.size - (headerLine (key p) (header p)).length, some p⟩
      else info := by
  by_cases hfit : (httpHeaderField (key p)).len + (header p).len.toInt + 4 ≤ info.size
  · simp [visitUntil, httpHeaderAccumelateStr, hfit]
  · simp [visitUntil, httpHeaderAccumelateStr, hfit]

/-- The cursor is moved to nodes that are written only. -/
theorem visitUntil_traversePtr (key : Ptr → BtKey) (header : Ptr → HttpHeader) (P : Ptr → Prop)
    (ps : List Ptr) : ∀ info : HttpHeaderStrInfo, (∀ p ∈ ps, P p) →
      (∀ p, info.traversePtr = some p → P p) →
      ∀ p, (visitUntil (httpHeaderAccumelateStr key header) ps info).traversePtr = some p →
        P p := by
  induction ps with
  | nil =>
    intro info _ _ p h
    cases h
  | cons q ps ih =>
    intro info hps hinfo
    rw [visitUntil_cons]
    split_ifs
    · refine ih _ (fun p hp => hps p (List.mem_cons_of_mem q hp)) fun p hp => ?_
      obtain rfl := Option.some.inj hp
      exact hps q List.mem_cons_self
    · exact hinfo

theorem accumulate_cursor (headers : HttpHeaderCollection) (size : Int) (p : Ptr)
    (h : (headers.accumulate size).traversePtr = some p) : headers.threaded.Linked p := by
  rcases headers.tree with ⟨v, hv⟩
  rcases accumulate_eq hv size with ⟨xs, ps, hlist, -, hsome, -, hinfo⟩
  rw [(threaded_represents hv).1.linked_iff, hlist]
  rw [hinfo] at h
  apply List.mem_append_right xs
  exact visitUntil_traversePtr v.key headers.header (· ∈ ps) ps _ (fun _ hp => hp) hsome p h

end HttpHeaderCollection

/-- What `http_header_to_str` returns, what it leaves in front of `info.buf`, and
    whether it sets `*is_end`. -/
structure HeaderStr where
  ret : Int
  str : List UInt8
  isEnd : Bool
  headers : HttpHeaderCollection

def httpHeaderToStr (headers : HttpHeaderCollection) (size : Int) : HeaderStr :=
  let info := headers.accumulate size
  let tree : ∃ v, headers.threaded.Represents v :=
    headers.tree.imp fun _ hv => (HttpHeaderCollection.threaded_represents hv).1
  if info.traversePtr = none ∧ 2 ≤ info.size then
    ⟨size - (info.size - 2), info.str ++ [CR, LF], true,
      { headerTree := headers.threaded
        header := headers.header
        traversePtr := headers.threaded.root
        tree := tree
        cursor := fun p h => by
          unfold Btree.Linked
          rw [h]
          exact .here p }⟩
  else
    ⟨size - info.size, info.str, false,
      { headerTree := headers.threaded
        header := headers.header
        traversePtr := info.traversePtr
        tree := tree
        cursor := headers.accumulate_cursor size }⟩

theorem accumulateLen_isSome (headers : HttpHeaderCollection) :
    (btreePreOrderTraverse headers.headerTree (httpHeaderAccumulateLen headers.header) 2).isSome := by
  rcases headers.tree with ⟨v, hv⟩
  have hholds : headers.headerTree.Holds (headers.headerTree.get .treeRoot) v.tree := hv.holds
  have hrun := btreeTraverseAt_reading .pre (fun p e len =>
    len + ((httpHeaderField e.key).len + (headers.header p).len.toInt + 4)) 2 hholds
    (Nat.lt_succ_of_le hv.height_le)
  rw [btreePreOrderTraverse, httpHeaderAccumulateLen, hrun]
  rfl

def httpHeaderLen (headers : HttpHeaderCollection) : Int :=
  ((btreePreOrderTraverse headers.headerTree (httpHeaderAccumulateLen headers.header) 2).get
    (accumulateLen_isSome headers)).2

/-- The lengths that `http_header_len` adds up. -/
def declaredLength (key : Ptr → BtKey) (header : Ptr → HttpHeader) : List Ptr → Int
  | [] => 0
  | p :: ps =>
      (httpHeaderField (key p)).len + (header p).len.toInt + 4 + declaredLength key header ps

theorem foldl_lineLength (key : Ptr → BtKey) (header : Ptr → HttpHeader) (ps : List Ptr) (s : Int) :
    ps.foldl (fun len p => len + ((httpHeaderField (key p)).len + (header p).len.toInt + 4)) s =
      s + declaredLength key header ps := by
  induction ps generalizing s with
  | nil => exact (Int.add_zero s).symm
  | cons p ps ih =>
    rw [List.foldl_cons, ih, declaredLength]
    omega

/-- `http_header_len` counts the nodes in an order of its own. -/
theorem httpHeaderLen_declared {headers : HttpHeaderCollection} {v : BtreeView}
    (hv : headers.headerTree.Represents v) :
    httpHeaderLen headers = declaredLength v.key headers.header v.tree.toList + 2 := by
  have hholds : headers.headerTree.Holds (headers.headerTree.get .treeRoot) v.tree := hv.holds
  have hrun := btreeTraverseAt_reading .pre (fun p e len =>
    len + ((httpHeaderField e.key).len + (headers.header p).len.toInt + 4)) 2 hholds
    (Nat.lt_succ_of_le hv.height_le)
  have hcomm : RightCommutative fun (len : Int) (p : Ptr) =>
      len + ((httpHeaderField (v.key p)).len + (headers.header p).len.toInt + 4) :=
    ⟨fun _ _ _ => Int.add_right_comm _ _ _⟩
  have hfold := (v.tree.walk_perm_toList .pre).foldl_eq
    (f := fun (len : Int) p =>
      len + ((httpHeaderField (v.key p)).len + (headers.header p).len.toInt + 4)) 2
  simp only [httpHeaderLen, btreePreOrderTraverse, httpHeaderAccumulateLen, hrun, Option.get_some,
    hv.key]
  rw [hfold, foldl_lineLength]
  omega

/-! ## 2. Lines -/

/-- A header as the callers of `http_header_add_by_id` store it. -/
structure HttpHeader.Sound (h : HttpHeader) : Prop where
  noNul : NUL ∉ h.value
  short : h.value.length < 32768
  len : h.len = Int16.ofNat h.value.length

/-- The length that is compared with the room left is that of the line. -/
theorem headerLine_length {id : BtKey} {h : HttpHeader} (hid : InTable id) (hh : h.Sound) :
    (httpHeaderField id).len + h.len.toInt + 4 = (headerLine id h).length := by
  rw [(httpHeaderFields_names.1 _ (httpHeaderField_mem hid)).1, hh.len, Int16.toInt_ofNat_of_lt hh.short,
    headerLine, cstr_eq_self hh.noNul]
  simp [bytes]
  omega

/-- A header as it is stored when the value may have a `NUL` in it, where its text ends. -/
structure HttpHeader.Sized (h : HttpHeader) : Prop where
  short : h.value.length < 32768
  len : h.len = Int16.ofNat h.value.length

theorem HttpHeader.Sound.sized {h : HttpHeader} (hh : h.Sound) : h.Sized := ⟨hh.short, hh.len⟩

/-- The length that is compared with the room left is enough for the line. -/
theorem headerLine_declared_le {id : BtKey} {h : HttpHeader} (hid : InTable id) (hh : h.Sized) :
    ((headerLine id h).length : Int) ≤ (httpHeaderField id).len + h.len.toInt + 4 := by
  have hcstr : (cstr h.value).length ≤ h.value.length := (List.takeWhile_sublist _).length_le
  rw [(httpHeaderFields_names.1 _ (httpHeaderField_mem hid)).1, hh.len, Int16.toInt_ofNat_of_lt hh.short,
    headerLine]
  simp [bytes]
  omega

theorem headerLine_ne_nil (id : BtKey) (h : HttpHeader) : headerLine id h ≠ [] := by
  simp [headerLine]

/-- Two lines that begin alike belong to one field. -/
theorem headerLine_inj {id id' : BtKey} {h h' : HttpHeader} (hid : InTable id)
    (hid' : InTable id') {r r' : List UInt8}
    (heq : headerLine id h ++ r = headerLine id' h' ++ r') : id = id' := by
  have hname : ∀ {id : BtKey} {h : HttpHeader} {r : List UInt8}, InTable id →
      (headerLine id h ++ r).takeWhile (· ≠ ':'.toUInt8) = (httpHeaderField id).str := by
    intro id h r hid
    have hcolon := (httpHeaderFields_names.1 _ (httpHeaderField_mem hid)).2
    have hall : ∀ c ∈ (httpHeaderField id).str, decide (c ≠ ':'.toUInt8) = true := fun c hc =>
      decide_eq_true fun h0 => hcolon (h0 ▸ hc)
    simp only [headerLine, List.append_assoc]
    rw [List.takeWhile_append_of_pos hall]
    simp [bytes]
  have hstr := congrArg (List.takeWhile (· ≠ ':'.toUInt8)) heq
  rw [hname hid, hname hid'] at hstr
  exact httpHeaderField_inj hid hid' hstr

/-! ## 3. One traversal -/

section Write
variable {key : Ptr → BtKey} {header : Ptr → HttpHeader}

/-- The lines of the nodes `ps`. -/
def headerLines (key : Ptr → BtKey) (header : Ptr → HttpHeader) (ps : List Ptr) : List UInt8 :=
  ps.flatMap fun p => headerLine (key p) (header p)

@[simp] theorem headerLines_nil : headerLines key header [] = [] := rfl
@[simp] theorem headerLines_cons (p : Ptr) (ps : List Ptr) :
    headerLines key header (p :: ps) =
      headerLine (key p) (header p) ++ headerLines key header ps := rfl
@[simp] theorem headerLines_append (ps qs : List Ptr) :
    headerLines key header (ps ++ qs) = headerLines key header ps ++ headerLines key header qs :=
  List.flatMap_append

/-- A node whose header is one of the table, as it is stored. -/
def SoundAt (key : Ptr → BtKey) (header : Ptr → HttpHeader) (p : Ptr) : Prop :=
  InTable (key p) ∧ (header p).Sound

/-- A node whose header is one of the table, and not too long. -/
def SizedAt (key : Ptr → BtKey) (header : Ptr → HttpHeader) (p : Ptr) : Prop :=
  InTable (key p) ∧ (header p).Sized

theorem SoundAt.sizedAt {p : Ptr} (hp : SoundAt key header p) : SizedAt key header p :=
  ⟨hp.1, hp.2.sized⟩

theorem headerLines_declared_le {ps : List Ptr} (hps : ∀ p ∈ ps, SizedAt key header p) :
    ((headerLines key header ps).length : Int) ≤ declaredLength key header ps := by
  induction ps with
  | nil => exact le_rfl
  | cons p ps ih =>
    have hp := hps p List.mem_cons_self
    have hline := headerLine_declared_le hp.1 hp.2
    have hlines := ih fun q hq => hps q (List.mem_cons_of_mem p hq)
    rw [headerLines_cons, List.length_append, declaredLength, Nat.cast_add]
    omega

theorem write_cons {p : Ptr} (hp : SoundAt key header p) (ps : List Ptr)
    (info : HttpHeaderStrInfo) :
    visitUntil (httpHeaderAccumelateStr key header) (p :: ps) info =
      if ((headerLine (key p) (header p)).length : Int) ≤ info.size then
        visitUntil (httpHeaderAccumelateStr key header) ps
          ⟨info.str ++ snprintf info.size.toNat (headerLine (key p) (header p)),
            info.size - (headerLine (key p) (header p)).length, some p⟩
      else info := by
  rw [HttpHeaderCollection.visitUntil_cons, headerLine_length hp.1 hp.2]

/-- For sound nodes the lengths are those of the lines. -/
theorem declaredLength_sound {ps : List Ptr} (hps : ∀ p ∈ ps, SoundAt key header p) :
    declaredLength key header ps = (headerLines key header ps).length := by
  induction ps with
  | nil => rfl
  | cons p ps ih =>
    have hp := hps p List.mem_cons_self
    rw [declaredLength, ih fun q hq => hps q (List.mem_cons_of_mem p hq),
      headerLine_length hp.1 hp.2, headerLines_cons, List.length_append]
    omega

/-- What is written stays. -/
theorem write_extends (ps : List Ptr) : ∀ info : HttpHeaderStrInfo,
    info.str <+: (visitUntil (httpHeaderAccumelateStr key header) ps info).str := by
  induction ps with
  | nil => exact fun info => List.prefix_refl _
  | cons p ps ih =>
    intro info
    rw [HttpHeaderCollection.visitUntil_cons]
    split_ifs
    · exact (List.prefix_append info.str _).trans (ih ⟨_, _, _⟩)
    · exact List.prefix_refl _

theorem snprintf_length_le (n : Nat) (s : List UInt8) : (snprintf n s).length ≤ s.length := by
  unfold snprintf
  split_ifs
  · exact le_rfl
  · exact Nat.zero_le _
  · rw [List.length_append, List.length_take, List.length_singleton]
    omega

/-- No more is written than there is room for. -/
theorem write_length_le (ps : List Ptr) : ∀ info : HttpHeaderStrInfo,
    (∀ p ∈ ps, SoundAt key header p) → 0 ≤ info.size →
    ((visitUntil (httpHeaderAccumelateStr key header) ps info).str.length : Int) ≤
      info.str.length + info.size := by
  induction ps with
  | nil =>
    intro info _ hpos
    exact le_add_of_nonneg_right hpos
  | cons p ps ih =>
    intro info hps hpos
    rw [write_cons (hps p List.mem_cons_self)]
    split_ifs with hfit
    · have hclip := snprintf_length_le info.size.toNat (headerLine (key p) (header p))
      refine (ih _ (fun q hq => hps q (List.mem_cons_of_mem p hq)) ?_).trans ?_
      · exact Int.sub_nonneg_of_le hfit
      · simp only [List.length_append, Nat.cast_add]
        omega
    · exact le_add_of_nonneg_right hpos

theorem snprintf_fits {n : Int} {s : List UInt8} (h : (s.length : Int) < n) :
    snprintf n.toNat s = s := if_pos (by omega)

/-- A line as long as the room left loses its last byte. -/
theorem snprintf_clips {n : Int} {s : List UInt8} (h : (s.length : Int) = n) (hs : s ≠ []) :
    snprintf n.toNat s = s.dropLast ++ [NUL] := by
  have hlen : s.length ≠ 0 := mt List.length_eq_zero_iff.mp hs
  obtain rfl := h
  rw [snprintf, if_neg (by simp), if_neg (by simpa using hlen), List.dropLast_eq_take]
  rfl

/-- All lines fit by the lengths that are compared, with room for a terminator. -/
theorem write_declared (ps : List Ptr) : ∀ info : HttpHeaderStrInfo,
    (∀ p ∈ ps, SizedAt key header p) → declaredLength key header ps < info.size →
    visitUntil (httpHeaderAccumelateStr key header) ps info =
      ⟨info.str ++ headerLines key header ps,
        info.size - (headerLines key header ps).length, none⟩ := by
  induction ps with
  | nil =>
    intro info _ _
    simp [visitUntil, httpHeaderAccumelateStr]
  | cons p ps ih =>
    intro info hps hlt
    have hp := hps p List.mem_cons_self
    have hps' : ∀ q ∈ ps, SizedAt key header q := fun q hq => hps q (List.mem_cons_of_mem p hq)
    have hline := headerLine_declared_le hp.1 hp.2
    have hlines := headerLines_declared_le hps'
    rw [declaredLength] at hlt
    have hrest : declaredLength key header ps <
        info.size - (headerLine (key p) (header p)).length := by omega
    rw [HttpHeaderCollection.visitUntil_cons, if_pos (by omega), snprintf_fits (by omega),
      ih _ hps' hrest]
    simp only [headerLines_cons, List.append_assoc, List.length_append, Nat.cast_add]
    rw [Int.sub_sub]

/-- All lines fit, with room for a terminator. -/
theorem write_all (ps : List Ptr) (info : HttpHeaderStrInfo) (hps : ∀ p ∈ ps, SoundAt key header p)
    (hlt : ((headerLines key header ps).length : Int) < info.size) :
    visitUntil (httpHeaderAccumelateStr key header) ps info =
      ⟨info.str ++ headerLines key header ps,
        info.size - (headerLines key header ps).length, none⟩ := by
  rw [← declaredLength_sound hps] at hlt
  exact write_declared ps info (fun p hp => (hps p hp).sizedAt) hlt

/-- Nothing is written any more. -/
theorem write_full (ps : List Ptr) (hps : ∀ p ∈ ps, SoundAt key header p)
    {info : HttpHeaderStrInfo} (h0 : info.size = 0) :
    (visitUntil (httpHeaderAccumelateStr key header) ps info).str = info.str ∧
      (visitUntil (httpHeaderAccumelateStr key header) ps info).size = 0 := by
  cases ps with
  | nil => exact ⟨rfl, h0⟩
  | cons p ps =>
    have hne := mt List.length_eq_zero_iff.mp (headerLine_ne_nil (key p) (header p))
    rw [write_cons (hps p List.mem_cons_self), if_neg (by omega)]
    exact ⟨rfl, h0⟩

/-- How a traversal ends that cannot write all of its nodes `ps`, at a node `p` behind
    the nodes `qs`: either the line of `p` is clipped, or it is the first that does not
    fit and the cursor is left in front of it. -/
inductive WriteStops (key : Ptr → BtKey) (header : Ptr → HttpHeader) (ps : List Ptr)
    (info info' : HttpHeaderStrInfo) : Prop where
  | clipped (qs : List Ptr) (p : Ptr) (rs : List Ptr) (hps : ps = qs ++ p :: rs)
      (hsize : info'.size = 0) (hstr : info'.str =
        info.str ++ headerLines key header qs ++ (headerLine (key p) (header p)).dropLast ++ [NUL])
  | stopped (qs : List Ptr) (p : Ptr) (rs : List Ptr) (hps : ps = qs ++ p :: rs)
      (hsize : info.size < (headerLines key header (qs ++ [p])).length)
      (hstr : info'.str = info.str ++ headerLines key header qs)
      (hcur : (∃ q ∈ qs, info'.traversePtr = some q) ∨
        qs = [] ∧ info'.traversePtr = info.traversePtr)

theorem write_stops (ps : List Ptr) : ∀ info : HttpHeaderStrInfo,
    (∀ p ∈ ps, SoundAt key header p) → 0 < info.size →
    info.size ≤ (headerLines key header ps).length →
    WriteStops key header ps info
      (visitUntil (httpHeaderAccumelateStr key header) ps info) := by
  induction ps with
  | nil =>
    intro info _ hpos hle
    simp only [headerLines_nil, List.length_nil, Nat.cast_zero] at hle
    omega
  | cons p ps ih =>
    intro info hps hpos hle
    have hps' : ∀ q ∈ ps, SoundAt key header q := fun q hq => hps q (List.mem_cons_of_mem p hq)
    simp only [headerLines_cons, List.length_append, Nat.cast_add] at hle
    rw [write_cons (hps p List.mem_cons_self)]
    rcases lt_trichotomy ((headerLine (key p) (header p)).length : Int) info.size with
      hlt | heq | hgt
    · rw [if_pos hlt.le, snprintf_fits hlt]
      have hrec := ih ⟨info.str ++ headerLine (key p) (header p),
        info.size - (headerLine (key p) (header p)).length, some p⟩ hps' (by
          simp only
          omega) (by
          simp only
          omega)
      cases hrec with
      | clipped qs q rs hqs hsize hstr =>
        exact .clipped (p :: qs) q rs (by rw [hqs]; rfl) hsize (by simp [hstr])
      | stopped qs q rs hqs hsize hstr hcur =>
        refine .stopped (p :: qs) q rs (by rw [hqs]; rfl) ?_ (by simp [hstr]) (Or.inl ?_)
        · simp only [List.cons_append, headerLines_cons, List.length_append, Nat.cast_add] at hsize ⊢
          omega
        · rcases hcur with ⟨q', hq', hcur⟩ | ⟨-, hcur⟩
          · exact ⟨q', List.mem_cons_of_mem p hq', hcur⟩
          · exact ⟨p, List.mem_cons_self, hcur⟩
    · rw [if_pos heq.le, snprintf_clips heq (headerLine_ne_nil _ _)]
      let info' : HttpHeaderStrInfo :=
        ⟨info.str ++ ((headerLine (key p) (header p)).dropLast ++ [NUL]),
          info.size - (headerLine (key p) (header p)).length, some p⟩
      have h0 : info'.size = 0 := by simp [info', heq]
      have hfull := write_full ps hps' h0
      refine .clipped [] p ps rfl hfull.2 ?_
      rw [hfull.1]
      simp [info']
    · rw [if_neg (not_le_of_gt hgt)]
      refine .stopped [] p ps rfl ?_ (by simp) (Or.inr ⟨rfl, rfl⟩)
      simpa using hgt

end Write

/-! ## 4. One call -/

section Call
variable {headers : HttpHeaderCollection} {v : BtreeView}

/-- The headers of the tree are sound. -/
def SoundView (headers : HttpHeaderCollection) (v : BtreeView) : Prop :=
  ∀ p ∈ v.tree.toList, SoundAt v.key headers.header p

/-- An added header is sound when its value is, up to the length given. -/
theorem SoundView.add (h : SoundView headers v) (hv : headers.headerTree.Represents v) {id : BtKey}
    (hid : InTable id) {value : List UInt8} (hvalue : peek value ≠ NUL) (hnul : NUL ∉ value)
    (hshort : value.length < 32768) :
    SoundView (httpHeaderAddById headers id value value.length).2
      (v.insert headers.headerTree.brk id (brk_not_mem hv)) := by
  rcases httpHeaderAddById_view hv id value.length hvalue with ⟨-, -, hheader, -⟩
  intro p hp
  unfold SoundAt
  rw [hheader]
  rcases Avl.AvlTree.mem_insert _ _ v.tree hp with rfl | hp
  · have hkey : (v.insert headers.headerTree.brk id (brk_not_mem hv)).key
        headers.headerTree.brk = id := Function.update_self ..
    rw [hkey, Function.update_self]
    exact ⟨hid, by simpa using hnul, by simpa using hshort, by simp [Int16.ofInt_eq_ofNat]⟩
  · have hne : p ≠ headers.headerTree.brk := ne_of_mem_of_not_mem hp (brk_not_mem hv)
    have hkey : (v.insert headers.headerTree.brk id (brk_not_mem hv)).key p = v.key p :=
      Function.update_of_ne hne ..
    rw [hkey, Function.update_of_ne hne]
    exact h p hp

/-- A call changes the threads and the cursor. -/
theorem httpHeaderToStr_represents (hv : headers.headerTree.Represents v) (size : Int) :
    (httpHeaderToStr headers size).headers.headerTree.Represents v ∧
      (httpHeaderToStr headers size).headers.header = headers.header ∧
      (httpHeaderToStr headers size).headers.headerTree.root = headers.headerTree.root := by
  rcases HttpHeaderCollection.threaded_represents hv with ⟨hrep, -, hroot⟩
  unfold httpHeaderToStr
  dsimp only
  split_ifs
  · exact ⟨hrep, rfl, hroot⟩
  · exact ⟨hrep, rfl, hroot⟩

/-- A call that ends the text. -/
theorem httpHeaderToStr_end {info : HttpHeaderStrInfo} {size : Int}
    (h : headers.accumulate size = info) (hend : info.traversePtr = none ∧ 2 ≤ info.size) :
    (httpHeaderToStr headers size).str = info.str ++ [CR, LF] ∧
      (httpHeaderToStr headers size).isEnd = true ∧
      (httpHeaderToStr headers size).ret = size - info.size + 2 ∧
      (httpHeaderToStr headers size).headers.traversePtr =
        (httpHeaderToStr headers size).headers.headerTree.root := by
  subst h
  simp only [httpHeaderToStr, if_pos hend]
  exact ⟨trivial, trivial, by omega, trivial⟩

/-- A call that leaves something to write. -/
theorem httpHeaderToStr_stay {info : HttpHeaderStrInfo} {size : Int}
    (h : headers.accumulate size = info) (hend : ¬ (info.traversePtr = none ∧ 2 ≤ info.size)) :
    (httpHeaderToStr headers size).str = info.str ∧
      (httpHeaderToStr headers size).isEnd = false ∧
      (httpHeaderToStr headers size).ret = size - info.size ∧
      (httpHeaderToStr headers size).headers.traversePtr = info.traversePtr := by
  subst h
  simp only [httpHeaderToStr, if_neg hend, and_self]

/-- With the cursor at the root the whole tree is walked. -/
theorem accumulate_root (hv : headers.headerTree.Represents v)
    (hcur : headers.traversePtr = headers.headerTree.root) (size : Int) :
    headers.accumulate size = visitUntil (httpHeaderAccumelateStr v.key headers.header)
      v.tree.toList ⟨[], size, headers.traversePtr⟩ := by
  rcases HttpHeaderCollection.accumulate_eq hv size with ⟨xs, ps, hlist, -, -, hroot, hinfo⟩
  rw [hinfo, hlist, hroot hcur, List.nil_append]

/-- With the cursor at `NULL` only the blank line is left. -/
theorem accumulate_none (hcur : headers.traversePtr = none) (size : Int) :
    headers.accumulate size = ⟨[], size, none⟩ := by
  rcases headers.tree with ⟨v, hv⟩
  rcases HttpHeaderCollection.accumulate_eq hv size with ⟨xs, ps, -, hnone, -, -, hinfo⟩
  rw [hinfo, hnone hcur]
  rfl

/-- **One call with a large enough buffer**, by the lengths that are compared, writes every
    line, and the blank line. -/
theorem httpHeaderToStr_declared (hv : headers.headerTree.Represents v)
    (hsized : ∀ p ∈ v.tree.toList, SizedAt v.key headers.header p)
    (hcur : headers.traversePtr = headers.headerTree.root) {size : Int}
    (hsize : declaredLength v.key headers.header v.tree.toList + 2 ≤ size) :
    (httpHeaderToStr headers size).str =
        headerLines v.key headers.header v.tree.toList ++ [CR, LF] ∧
      (httpHeaderToStr headers size).isEnd = true ∧
      (httpHeaderToStr headers size).ret =
        (headerLines v.key headers.header v.tree.toList).length + 2 ∧
      (httpHeaderToStr headers size).headers.traversePtr =
        (httpHeaderToStr headers size).headers.headerTree.root := by
  have hlines := headerLines_declared_le hsized
  have hlt : declaredLength v.key headers.header v.tree.toList < size := by omega
  have hinfo := (accumulate_root hv hcur size).trans (write_declared v.tree.toList _ hsized hlt)
  rcases httpHeaderToStr_end hinfo ⟨rfl, by simp only; omega⟩ with ⟨hstr, hend, hret, hptr⟩
  exact ⟨hstr, hend, by simp only at hret; omega, hptr⟩

/-- For sound headers the lengths are those of the lines. -/
theorem httpHeaderToStr_fits (hv : headers.headerTree.Represents v) (hsound : SoundView headers v)
    (hcur : headers.traversePtr = headers.headerTree.root) {size : Int}
    (hsize : ((headerLines v.key headers.header v.tree.toList).length : Int) + 2 ≤ size) :
    (httpHeaderToStr headers size).str =
        headerLines v.key headers.header v.tree.toList ++ [CR, LF] ∧
      (httpHeaderToStr headers size).isEnd = true ∧
      (httpHeaderToStr headers size).ret =
        (headerLines v.key headers.header v.tree.toList).length + 2 ∧
      (httpHeaderToStr headers size).headers.traversePtr =
        (httpHeaderToStr headers size).headers.headerTree.root := by
  rw [← declaredLength_sound hsound] at hsize
  exact httpHeaderToStr_declared hv (fun p hp => (hsound p hp).sizedAt) hcur hsize

end Call

/-! ## 5. The text of a collection -/

namespace HttpHeaderCollection

/-- The nodes of a collection in the order of their field ids. -/
structure Listed (headers : HttpHeaderCollection) (ps : List Ptr) : Prop where
  mem_iff : ∀ p, p ∈ ps ↔ headers.headerTree.Linked p
  sorted : ps.Pairwise fun p q => (headers.headerTree.node p).key < (headers.headerTree.node q).key

/-- Field ids of the table, and values without `NUL` of less than 32768 bytes. -/
def Sound (headers : HttpHeaderCollection) : Prop :=
  ∀ p, headers.headerTree.Linked p →
    SoundAt (fun p => (headers.headerTree.node p).key) headers.header p

/-- Field ids of the table, and values of less than 32768 bytes. -/
def Sized (headers : HttpHeaderCollection) : Prop :=
  ∀ p, headers.headerTree.Linked p →
    SizedAt (fun p => (headers.headerTree.node p).key) headers.header p

/-- The line of a node. -/
def line (headers : HttpHeaderCollection) (p : Ptr) : List UInt8 :=
  headerLine (headers.headerTree.node p).key (headers.header p)

theorem Listed.eq_toList {headers : HttpHeaderCollection} {ps : List Ptr} {v : BtreeView}
    (h : headers.Listed ps) (hv : headers.headerTree.Represents v) : ps = v.tree.toList := by
  have hsorted := h.sorted
  simp only [hv.key] at hsorted
  have hsub : ∀ p, p ∈ ps ↔ p ∈ v.tree.toList := fun p => (h.mem_iff p).trans hv.linked_iff
  have hord := (Avl.AvlTree.ordered_iff_pairwise v.key v.tree).mp v.ordered
  have hperm : ps.Perm v.tree.toList :=
    (List.perm_ext_iff_of_nodup (hsorted.imp fun hlt heq => absurd (heq ▸ hlt) (lt_irrefl _))
      v.ordered.nodup).mpr hsub
  exact hperm.eq_of_pairwise (fun _ _ _ _ h h' => absurd (lt_trans h h') (lt_irrefl _)) hsorted hord

theorem flatMap_line {headers : HttpHeaderCollection} {v : BtreeView}
    (hv : headers.headerTree.Represents v) (ps : List Ptr) :
    ps.flatMap headers.line = headerLines v.key headers.header ps := by
  unfold headerLines line
  simp only [hv.key]

theorem Sound.view {headers : HttpHeaderCollection} {v : BtreeView} (h : headers.Sound)
    (hv : headers.headerTree.Represents v) : SoundView headers v := by
  intro p hp
  have hp' := h p (hv.linked_iff.mpr hp)
  unfold SoundAt at hp' ⊢
  simp only [hv.key] at hp'
  exact hp'

theorem Sized.view {headers : HttpHeaderCollection} {v : BtreeView} (h : headers.Sized)
    (hv : headers.headerTree.Represents v) :
    ∀ p ∈ v.tree.toList, SizedAt v.key headers.header p := by
  intro p hp
  have hp' := h p (hv.linked_iff.mpr hp)
  unfold SizedAt at hp' ⊢
  simp only [hv.key] at hp'
  exact hp'

theorem listed_of_view {headers : HttpHeaderCollection} {v : BtreeView}
    (hv : headers.headerTree.Represents v) : headers.Listed v.tree.toList := by
  refine ⟨fun p => hv.linked_iff.symm, ?_⟩
  simp only [hv.key]
  exact (Avl.AvlTree.ordered_iff_pairwise v.key v.tree).mp v.ordered

theorem sound_of_view {headers : HttpHeaderCollection} {v : BtreeView}
    (hv : headers.headerTree.Represents v) (h : SoundView headers v) : headers.Sound := by
  intro p hp
  have hp' := h p (hv.linked_iff.mp hp)
  unfold SoundAt at hp' ⊢
  simp only [hv.key]
  exact hp'

end HttpHeaderCollection

end OServer
