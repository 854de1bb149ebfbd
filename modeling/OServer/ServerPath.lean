/-
  OServer/ServerPath.lean
  =======================
  **The arrays `path` and `tmp` of `server_process_get`.**

  The document root, the segments and the name of the index are copied one behind the
  other, and nothing compares their lengths with the size of the array.  A root may be
  almost as long as the array is.

    * `storePath_puts`               — the path fits, or a write goes over the end;
    * `serverProcessGetArrays_holds` — both arrays hold what is written to them;
    * `arraysHold_iff`               — what this means for the root and the segments;
    * `serverProcessGet_inBounds`    — all of it, for an accepted target.
-/
import OServer.Lib.Buf
import OServer.HttpUrlSlices
import OServer.ServerFraming
import OServer.ServerRoot
import Mathlib.Data.List.Flatten

namespace OServer

open CString Segments

/-! ## 1. Model -/

abbrev PathArray := Buf UInt8 (pathMax + 1)

/-- The bytes of a string, and the terminator behind them. -/
def putString (b : PathArray) (p : Nat) (src : List UInt8) : Option PathArray := do
  let b ← b.store p src
  b.store (p + src.length) [NUL]

/-- `gen_path`, with the pointer to the end of the path. -/
def genPathAt (url : HttpUrl) (st : PathArray × Nat) (node : HttpUrlPathSeg) :
    Option (PathArray × Nat) := do
  let path ← putString st.1 st.2 (node.text url.url)
  some (path, st.2 + node.dataLen)

/-- What `server_process_get` writes to `path`; the root is that of the configuration. -/
def storePath (root : List UInt8) (url : HttpUrl) (path : PathArray) : Option PathArray := do
  let path ← putString path 0 root
  let path ← putString path root.length (bytes "/")
  let st ← url.path.pathStack.foldlM (genPathAt url) (path, root.length + 1)
  if st.1.cells[st.2 - 1]? = some '/'.toUInt8 then putString st.1 st.2 (bytes "index.html")
  else some st.1

/-- What it writes to `tmp`, with the length of the file and the path. -/
def storeType (clen : Int) (path tmp : PathArray) : Option PathArray := do
  let tmp ← putString tmp 0 (bytes (toString clen))
  match strrchr path.cells '.'.toUInt8 with
  | none => some tmp
  | some dot => putString tmp 0 (contentType (cstr (path.cells.drop (dot + 1))))

/-- The two arrays at the end of `server_process_get`; `none` where a byte is written
    outside of one of them. -/
def serverProcessGetArrays (root : List UInt8) (fs : FileSystem) (req : HttpRequest)
    (res : HttpResponse) (keepAlive : Bool) (path tmp : PathArray) :
    Option (PathArray × PathArray) := do
  let path ← storePath root req.url path
  let r := openFile fs (cstr path.cells) (httpResponseReset res .ok200) keepAlive
  let tmp ← storeType r.2.1 path tmp
  some (path, tmp)

/-! ## 2. Texts in an array -/

/-- What comes of writing the text `t` to the front of an array: it is there with its
    terminator, or it does not fit. -/
inductive Puts (t : List UInt8) : Option PathArray → Prop where
  | fits (b : PathArray) (h : t.length ≤ pathMax) (hb : t ++ [NUL] <+: b.cells) : Puts t (some b)
  | overflow (h : pathMax < t.length) : Puts t none

theorem putString_puts {b : PathArray} {s : List UInt8} (hs : s <+: b.cells) (src : List UInt8) :
    Puts (s ++ src) (putString b s.length src) := by
  unfold putString
  rcases Nat.lt_or_ge (pathMax + 1) (s.length + src.length) with hlong | hshort
  · rw [Buf.store_none hlong]
    refine .overflow ?_
    rw [List.length_append]
    omega
  · obtain ⟨b₁, hb₁, hs₁⟩ := Buf.store_append hs src hshort
    rw [hb₁, Option.bind_eq_bind, Option.bind_some]
    rw [← List.length_append]
    rcases Nat.lt_or_ge pathMax (s ++ src).length with hlong | hfits
    · rw [Buf.store_none (Nat.succ_lt_succ hlong)]
      exact .overflow hlong
    · obtain ⟨b₂, hb₂, hs₂⟩ := Buf.store_append hs₁ [NUL] (Nat.succ_le_succ hfits)
      rw [hb₂]
      exact .fits b₂ hfits hs₂

theorem putString_front (b : PathArray) (src : List UInt8) : Puts src (putString b 0 src) :=
  putString_puts List.nil_prefix src

/-- One text behind the other; one that does not fit is not made shorter by what follows. -/
theorem Puts.bind {t t' : List UInt8} {r : Option PathArray} {f : PathArray → Option PathArray}
    (h : Puts t r)
    (hf : ∀ b : PathArray, t.length ≤ pathMax → t ++ [NUL] <+: b.cells → Puts (t ++ t') (f b)) :
    Puts (t ++ t') (r.bind f) := by
  cases h with
  | fits b h hb => exact hf b h hb
  | overflow h =>
    refine .overflow ?_
    rw [List.length_append]
    omega

theorem prefix_of_terminated {b : PathArray} {t : List UInt8} (h : t ++ [NUL] <+: b.cells) :
    t <+: b.cells :=
  (List.prefix_append t [NUL]).trans h

/-! ## 3. The path -/

/-- The copies of the segments one behind the other. -/
theorem genPathAt_fold {url : HttpUrl} {stack : List HttpUrlPathSeg}
    (hlen : ∀ s ∈ stack, (s.text url.url).length = s.dataLen) {b : PathArray} {t : List UInt8}
    (hb : t ++ [NUL] <+: b.cells) (ht : t.length ≤ pathMax) :
    ∃ r, Puts (t ++ (stack.map (·.text url.url)).flatten) r ∧
      stack.foldlM (genPathAt url) (b, t.length) =
        r.map fun b => (b, (t ++ (stack.map (·.text url.url)).flatten).length) := by
  induction stack generalizing b t with
  | nil =>
    rw [List.map_nil, List.flatten_nil, List.append_nil]
    exact ⟨some b, .fits b ht hb, rfl⟩
  | cons s stack ih =>
    have hs := hlen s List.mem_cons_self
    have hrest := fun s' hs' => hlen s' (List.mem_cons_of_mem s hs')
    have hput := putString_puts (prefix_of_terminated hb) (s.text url.url)
    rw [List.map_cons, List.flatten_cons, ← List.append_assoc, List.foldlM_cons, genPathAt]
    generalize putString b t.length (s.text url.url) = r at hput ⊢
    cases hput with
    | overflow h =>
      refine ⟨none, .overflow ?_, rfl⟩
      rw [List.length_append]
      omega
    | fits b₁ h hb₁ =>
      obtain ⟨r, hputs, hfold⟩ := ih hrest hb₁ h
      refine ⟨r, hputs, ?_⟩
      rw [← hfold, List.length_append, hs]
      rfl

theorem getElem?_last {b : PathArray} {t : List UInt8} (hne : t ≠ []) (hb : t <+: b.cells) :
    b.cells[t.length - 1]? = t.getLast? := by
  obtain ⟨q, hq⟩ := hb
  have hpos := List.length_pos_iff.mpr hne
  rw [← hq, List.getElem?_append_left (by omega), List.getLast?_eq_getElem?]

/-- **The path**: what the array holds is what `stat` is asked for. -/
theorem storePath_puts {root : List UInt8} {url : HttpUrl}
    (hlen : ∀ s ∈ url.path.pathStack, (s.text url.url).length = s.dataLen) (path : PathArray) :
    Puts (servedPath root url) (storePath root url path) := by
  have hserved : servedPath root url = root ++ (bytes "/" ++ (url.segmentTexts.flatten ++
      if (root ++ bytes "/" ++ url.segmentTexts.flatten).getLast? = some '/'.toUInt8 then
        bytes "index.html" else [])) := by
    rw [servedPath_eq]
    split_ifs <;> simp
  rw [hserved, storePath]
  refine (putString_front path root).bind fun b h hb => ?_
  rw [← List.append_assoc]
  refine (putString_puts (prefix_of_terminated hb) (bytes "/")).bind fun b₁ h₁ hb₁ => ?_
  obtain ⟨r, hputs, hfold⟩ := genPathAt_fold hlen hb₁ h₁
  have hsize : (root ++ bytes "/").length = root.length + 1 := by
    rw [List.length_append]
    rfl
  rw [hsize] at hfold
  rw [hfold, ← List.append_assoc, Option.bind_eq_bind, Option.bind_map]
  refine hputs.bind fun b₂ h₂ hb₂ => ?_
  have hne : root ++ bytes "/" ++ url.segmentTexts.flatten ≠ [] := by
    simp [bytes]
  have hlast := getElem?_last hne (prefix_of_terminated hb₂)
  dsimp only [Function.comp_apply]
  rw [← HttpUrl.segmentTexts, hlast]
  split_ifs
  · exact putString_puts (prefix_of_terminated hb₂) (bytes "index.html")
  · rw [List.append_nil]
    exact .fits b₂ h₂ hb₂

/-! ## 4. The media type -/

/-- The type is what follows the last dot. -/
theorem mediaType_eq (p : List UInt8) : mediaType p =
    if '.'.toUInt8 ∈ cstr p then some (contentType (afterLast '.'.toUInt8 (cstr p))) else none := by
  unfold mediaType
  split_ifs with hdot
  · obtain ⟨u, hu, hw⟩ := exists_afterLast hdot
    have hlen := congrArg List.length hu
    rw [List.length_append, List.length_cons] at hlen
    have hdrop : (cstr p).drop (u.length + 1) = afterLast '.'.toUInt8 (cstr p) := by
      nth_rewrite 1 [hu]
      rw [← List.drop_drop, List.drop_left]
      rfl
    rw [strrchr_last hu hw, Option.map_some, cstr_drop (by omega), hdrop]
  · rw [strrchr_none hdot]
    rfl

/-- The arrays are filled with what `server_process_get` goes on with. -/
theorem storeType_puts {clen : Int} (hclen : (bytes (toString clen)).length ≤ pathMax)
    (path tmp : PathArray) :
    (storeType clen path tmp).isSome = true ↔
      ∀ type, mediaType path.cells = some type → type.length ≤ pathMax := by
  unfold storeType mediaType
  have hnum := putString_front tmp (bytes (toString clen))
  generalize putString tmp 0 (bytes (toString clen)) = r at hnum ⊢
  cases hnum with
  | overflow h => exact absurd hclen (Nat.not_le_of_lt h)
  | fits tmp h hb =>
    rw [Option.bind_eq_bind, Option.bind_some]
    cases strrchr path.cells '.'.toUInt8 with
    | none => simp
    | some dot =>
      dsimp only
      rw [Option.map_some]
      have htype := putString_front tmp (contentType (cstr (path.cells.drop (dot + 1))))
      generalize putString tmp 0 (contentType (cstr (path.cells.drop (dot + 1)))) = r' at htype ⊢
      cases htype with
      | fits b h hb => simpa using h
      | overflow h => simpa using h

/-- **The arrays hold what is written to them** exactly when the path and the media type fit. -/
theorem serverProcessGetArrays_holds {root : List UInt8} {req : HttpRequest}
    (hlen : ∀ s ∈ req.url.path.pathStack, (s.text req.url.url).length = s.dataLen)
    (hpath : NUL ∉ servedPath root req.url) (fs : FileSystem) (res : HttpResponse)
    (keepAlive : Bool) (path tmp : PathArray) :
    (serverProcessGetArrays root fs req res keepAlive path tmp).isSome = true ↔
      ArraysHold (servedPath root req.url) := by
  have hputs : Puts (servedPath root req.url) (storePath root req.url path) :=
    storePath_puts hlen path
  unfold serverProcessGetArrays ArraysHold
  generalize storePath root req.url path = r at hputs ⊢
  cases hputs with
  | overflow h =>
    refine iff_of_false (fun h => nomatch h) fun hhold => ?_
    exact absurd hhold.1 (Nat.not_le_of_lt h)
  | fits b h hb =>
    obtain ⟨q, hq⟩ := hb
    have hcells : b.cells = servedPath root req.url ++ NUL :: q := by
      rw [← hq, List.append_assoc]
      rfl
    have hcstr : cstr b.cells = cstr (servedPath root req.url) := by
      rw [hcells, cstr_append_nul hpath, cstr_eq_self hpath]
    have htype : mediaType b.cells = mediaType (servedPath root req.url) := by
      rw [mediaType_eq, mediaType_eq, hcstr]
    have hclen : (bytes (toString (openFile fs (cstr b.cells) (httpResponseReset res .ok200)
        keepAlive).2.1)).length ≤ pathMax := by
      have hfound := found fs (cstr b.cells) (httpResponseReset res .ok200) keepAlive
      cases hfound with
      | nothing status hopen =>
        have hzero : (bytes (toString (0 : Int))).length ≤ pathMax := by decide
        rw [hopen]
        exact hzero
      | file info fd _ _ hopen =>
        have hdigits := length_toInt32_le info.stSize
        rw [hopen]
        dsimp only
        unfold pathMax
        omega
    have hstore := storeType_puts hclen b tmp
    rw [htype] at hstore
    rw [Option.bind_eq_bind, Option.bind_some]
    dsimp only
    rw [and_iff_right h, ← hstore]
    cases storeType _ b tmp <;> rfl

/-! ## 5. What fits -/

/-- A path that is a directory: nothing follows the root, or it ends with a `/`. -/
def NamesDirectory (t : List UInt8) : Prop := t = [] ∨ t.getLast? = some '/'.toUInt8

instance namesDirectoryDecidable (t : List UInt8) : Decidable (NamesDirectory t) :=
  inferInstanceAs (Decidable (t = [] ∨ t.getLast? = some '/'.toUInt8))

/-- The root and the bytes `t` of the segments fit in the arrays.  The media type is long only
    for a file without a dot in its path below the root, when there is one in the root. -/
structure PathFits (root t : List UInt8) : Prop where
  path : root.length + 1 + t.length + (if NamesDirectory t then 10 else 0) ≤ pathMax
  type : ¬NamesDirectory t → '.'.toUInt8 ∉ t → '.'.toUInt8 ∈ root →
    5 + (afterLast '.'.toUInt8 root).length + 1 + t.length ≤ pathMax

theorem getLast?_root (root t : List UInt8) :
    (root ++ bytes "/" ++ t).getLast? = some '/'.toUInt8 ↔ NamesDirectory t := by
  cases t with
  | nil => simp [NamesDirectory, bytes]
  | cons c t =>
    rw [List.getLast?_append_of_ne_nil _ (List.cons_ne_nil c t)]
    simp [NamesDirectory]

theorem contentType_length_le (type : List UInt8) : (contentType type).length ≤ type.length + 6 := by
  have himage : (bytes "image/").length = 6 := by decide
  have htext : (bytes "text/").length = 5 := by decide
  unfold contentType
  split_ifs <;> rw [List.length_append] <;> omega

/-- The text behind the last dot of a file, where the dot is not in the segments. -/
theorem contentType_slash {type : List UInt8} (h : '/'.toUInt8 ∈ type) :
    (contentType type).length = 5 + type.length := by
  have hnot : type ∉ [bytes "jpg", bytes "jpeg", bytes "png", bytes "bmp"] := by
    intro hmem
    have hslash : ∀ w ∈ [bytes "jpg", bytes "jpeg", bytes "png", bytes "bmp"], '/'.toUInt8 ∉ w := by
      decide
    exact hslash type hmem h
  have htext : (bytes "text/").length = 5 := by decide
  rw [contentType, if_neg hnot, List.length_append, htext]

/-- The arrays in terms of the bytes behind the last dot. -/
theorem arraysHold_afterLast {path : List UInt8} (hpath : NUL ∉ path) :
    ArraysHold path ↔ path.length ≤ pathMax ∧ ('.'.toUInt8 ∈ path →
      (contentType (afterLast '.'.toUInt8 path)).length ≤ pathMax) := by
  have htype := mediaType_eq path
  rw [cstr_eq_self hpath] at htype
  unfold ArraysHold
  rw [htype]
  refine and_congr_right fun _ => ?_
  by_cases hdot : '.'.toUInt8 ∈ path
  · simp [hdot]
  · simp [hdot]

/-- The type of the index. -/
theorem typeFits_index (path : List UInt8) :
    (contentType (afterLast '.'.toUInt8 (path ++ bytes "index.html"))).length ≤ pathMax := by
  have hsuffix : bytes "index.html" <:+ path ++ bytes "index.html" := List.suffix_append _ _
  have hmem : '.'.toUInt8 ∈ bytes "index.html" := by decide
  have hhtml : (contentType (afterLast '.'.toUInt8 (bytes "index.html"))).length = 9 := by decide
  rw [afterLast_suffix hsuffix hmem, hhtml]
  exact Nat.le_of_ble_eq_true rfl

/-- A dot of the root, when the segments have none: the type begins in the root, and goes on to
    the end of the path. -/
theorem afterLast_root {root t : List UInt8} (hdot : '.'.toUInt8 ∈ root) (hseg : '.'.toUInt8 ∉ t) :
    afterLast '.'.toUInt8 (root ++ bytes "/" ++ t) = afterLast '.'.toUInt8 root ++ bytes "/" ++ t := by
  obtain ⟨u, hu, hw⟩ := exists_afterLast hdot
  have hrest : '.'.toUInt8 ∉ afterLast '.'.toUInt8 root ++ bytes "/" ++ t := by
    rw [List.mem_append, List.mem_append, not_or, not_or]
    exact ⟨⟨hw, by decide⟩, hseg⟩
  rw [← afterLast_append hrest u]
  congr 1
  nth_rewrite 1 [hu]
  simp

/-- The type of a file: a dot in the segments leaves a short one. -/
theorem typeFits_file {root t : List UInt8} (hshort : t.length < urlSize) :
    ('.'.toUInt8 ∈ root ++ bytes "/" ++ t →
        (contentType (afterLast '.'.toUInt8 (root ++ bytes "/" ++ t))).length ≤ pathMax) ↔
      ('.'.toUInt8 ∉ t → '.'.toUInt8 ∈ root →
        5 + (afterLast '.'.toUInt8 root).length + 1 + t.length ≤ pathMax) := by
  by_cases hseg : '.'.toUInt8 ∈ t
  · have hsuffix : t <:+ root ++ bytes "/" ++ t := List.suffix_append _ _
    have hlast := contentType_length_le (afterLast '.'.toUInt8 t)
    have hafter : (afterLast '.'.toUInt8 t).length ≤ t.length := (afterLast_isSuffix _ t).length_le
    have hurl : urlSize + 6 ≤ pathMax := Nat.le_of_ble_eq_true rfl
    rw [afterLast_suffix hsuffix hseg]
    exact iff_of_true (fun _ => by omega) fun hnot => absurd hseg hnot
  by_cases hdot : '.'.toUInt8 ∈ root
  · have hslash : (bytes "/").length = 1 := by decide
    have hmem : '.'.toUInt8 ∈ root ++ bytes "/" ++ t :=
      List.mem_append_left _ (List.mem_append_left _ hdot)
    have htype : (contentType (afterLast '.'.toUInt8 root ++ bytes "/" ++ t)).length =
        5 + (afterLast '.'.toUInt8 root).length + 1 + t.length := by
      rw [contentType_slash (List.mem_append_left _ (List.mem_append_right _ (by decide))),
        List.length_append, List.length_append, hslash]
      omega
    rw [afterLast_root hdot hseg, htype]
    exact ⟨fun h _ _ => h hmem, fun h _ => h hseg hdot⟩
  · have hnone : '.'.toUInt8 ∉ root ++ bytes "/" ++ t := by
      rw [List.mem_append, List.mem_append, not_or, not_or]
      exact ⟨⟨hdot, by decide⟩, hseg⟩
    exact iff_of_true (fun hmem => absurd hmem hnone) fun _ hmem => absurd hmem hdot

theorem arraysHold_iff {root : List UInt8} {url : HttpUrl} (hpath : NUL ∉ servedPath root url)
    (hshort : url.segmentTexts.flatten.length < urlSize) :
    ArraysHold (servedPath root url) ↔ PathFits root url.segmentTexts.flatten := by
  rw [arraysHold_afterLast hpath, servedPath_eq, if_congr (getLast?_root root _) rfl rfl]
  clear hpath
  generalize url.segmentTexts.flatten = t at *
  have hslash : (bytes "/").length = 1 := by decide
  have hindex : (bytes "index.html").length = 10 := by decide
  by_cases hdir : NamesDirectory t
  · rw [if_pos hdir]
    simp only [List.length_append, hslash, hindex]
    constructor
    · intro h
      refine ⟨?_, fun hnot => absurd hdir hnot⟩
      rw [if_pos hdir]
      exact h.1
    · intro h
      have hfits := h.path
      rw [if_pos hdir] at hfits
      exact ⟨hfits, fun _ => typeFits_index _⟩
  · rw [if_neg hdir, typeFits_file hshort]
    simp only [List.length_append, hslash]
    constructor
    · intro h
      refine ⟨?_, fun _ => h.2⟩
      rw [if_neg hdir]
      exact h.1
    · intro h
      have hfits := h.path
      rw [if_neg hdir] at hfits
      exact ⟨hfits, h.type hdir⟩

/-! ## 6. Accepted targets -/

/-- What is known of the segments of an accepted target. -/
structure HttpUrl.SegmentsOk (url : HttpUrl) : Prop where
  copied : ∀ s ∈ url.path.pathStack, (s.text url.url).length = s.dataLen
  isPath : ∀ b ∈ url.segmentTexts.flatten, isPath b = true
  short : url.segmentTexts.flatten.length < urlSize

theorem httpUrlParse_segmentsOk {data : List UInt8} (hret : (httpUrlParse data httpUrlInit).ret = 0)
    (hlen : 0 < (httpUrlParse data httpUrlInit).parseLen) :
    (httpUrlParse data httpUrlInit).val.SegmentsOk := by
  rcases httpUrlParse_accepted hret hlen with ⟨hu, hval⟩
  rcases urlParseTarget_stack rfl store_url_ne_nil hu.2.2.2 with ⟨t, ht, hsegs⟩
  have hinside := urlParseTarget_inside hu
  rw [← hval] at hsegs hinside
  have harray : (httpUrlInit.store (targetText data)).url.length = urlSize := by
    have hn := hu.2.2.1
    rw [HttpUrl.store, List.length_append, List.length_cons, List.length_drop, httpUrlInit,
      List.length_replicate]
    omega
  have hsize : (httpUrlParse data httpUrlInit).val.url.length = urlSize := by
    rw [hval, urlParseTarget_url, harray]
  unfold pathSegments at hsegs
  split at hsegs
  case isFalse => cases hsegs
  case isTrue hall =>
  have hsub := (walk_sublist hsegs).flatten
  rw [List.nil_append, segments_flatten] at hsub
  refine ⟨?_, ?_, ?_⟩
  · intro s hs
    have hin := (hinside.path.segment s hs).2
    have hn := hu.2.2.1
    rw [HttpUrlPathSeg.text, List.length_take, List.length_drop, hsize]
    omega
  · intro b hb
    exact List.all_eq_true.mp hall b (hsub.subset hb)
  · exact Nat.lt_of_le_of_lt hsub.length_le (harray ▸ ht)

theorem nul_not_mem_servedPath {root : List UInt8} {url : HttpUrl} (hroot : NUL ∉ root)
    (hsegs : url.SegmentsOk) : NUL ∉ servedPath root url := by
  have hseg : NUL ∉ url.segmentTexts.flatten := nul_not_mem_path hsegs.isPath
  have hslash : NUL ∉ bytes "/" := by decide
  have hindex : NUL ∉ bytes "index.html" := by decide
  rw [servedPath_eq]
  split_ifs <;> simp only [List.mem_append, not_or] <;> simp [hroot, hseg, hslash, hindex]

/-- **The writes of `server_process_get` stay inside its arrays** exactly when the root and the
    segments are short enough for them. -/
theorem serverProcessGet_inBounds {root data : List UInt8} {req : HttpRequest} (hroot : NUL ∉ root)
    (hret : (httpUrlParse data httpUrlInit).ret = 0)
    (hlen : 0 < (httpUrlParse data httpUrlInit).parseLen)
    (hurl : req.url = (httpUrlParse data httpUrlInit).val) (fs : FileSystem) (res : HttpResponse)
    (keepAlive : Bool) (path tmp : PathArray) :
    (serverProcessGetArrays root fs req res keepAlive path tmp).isSome = true ↔
      PathFits root req.url.segmentTexts.flatten := by
  have hsegs := httpUrlParse_segmentsOk hret hlen
  rw [← hurl] at hsegs
  have hpath := nul_not_mem_servedPath hroot hsegs
  rw [serverProcessGetArrays_holds hsegs.copied hpath, arraysHold_iff hpath hsegs.short]

/-- A root of 4095 bytes, as `realpath` may give it. -/
def longRoot : List UInt8 := '/'.toUInt8 :: List.replicate 4094 'a'.toUInt8

theorem longRoot_spec : NUL ∉ longRoot ∧ longRoot.length = pathMax - 1 := by
  constructor
  · rw [longRoot, List.mem_cons, List.mem_replicate]
    decide
  · rw [longRoot, List.length_cons, List.length_replicate]
    rfl

/-- Below it there is room for the `/` only. -/
theorem not_pathFits_longRoot (t : List UInt8) : ¬PathFits longRoot t := by
  intro hfits
  have htoo := hfits.path
  rw [longRoot_spec.2] at htoo
  cases t with
  | nil => simp [NamesDirectory, pathMax] at htoo
  | cons c t =>
    rw [List.length_cons] at htoo
    unfold pathMax at htoo
    omega

def zeroArray : PathArray := ⟨List.replicate (pathMax + 1) NUL, List.length_replicate⟩

/-- The request for a target. -/
def targetRequest (data : List UInt8) : HttpRequest :=
  { httpRequestInit with url := (httpUrlParse data httpUrlInit).val }

theorem serverProcessGetArrays_longRoot {data : List UInt8}
    (hret : (httpUrlParse data httpUrlInit).ret = 0)
    (hlen : 0 < (httpUrlParse data httpUrlInit).parseLen) :
    serverProcessGetArrays longRoot noFiles (targetRequest data) (httpResponseInit .ok200) false
      zeroArray zeroArray = none := by
  have hsegs : (targetRequest data).url.SegmentsOk := httpUrlParse_segmentsOk hret hlen
  have hpath := nul_not_mem_servedPath longRoot_spec.1 hsegs
  rw [← Option.not_isSome_iff_eq_none, serverProcessGetArrays_holds hsegs.copied hpath,
    arraysHold_iff hpath hsegs.short]
  exact not_pathFits_longRoot _

theorem serverProcessGet_not_inBounds :
    NUL ∉ longRoot ∧ longRoot.length = pathMax - 1 ∧
    (httpUrlParse (bytes "/ ") httpUrlInit).ret = 0 ∧
    0 < (httpUrlParse (bytes "/ ") httpUrlInit).parseLen ∧
    serverProcessGetArrays longRoot noFiles (targetRequest (bytes "/ ")) (httpResponseInit .ok200)
      false zeroArray zeroArray = none := by
  have hret : (httpUrlParse (bytes "/ ") httpUrlInit).ret = 0 := by decide +kernel
  have hlen : 0 < (httpUrlParse (bytes "/ ") httpUrlInit).parseLen := by decide +kernel
  exact ⟨longRoot_spec.1, longRoot_spec.2, hret, hlen, serverProcessGetArrays_longRoot hret hlen⟩

theorem serverProcessGet_inBounds_page :
    (serverProcessGetArrays (bytes "/srv.d") noFiles (targetRequest (bytes "/a/b.html "))
      (httpResponseInit .ok200) false zeroArray zeroArray).isSome = true := by
  have htext : (targetRequest (bytes "/a/b.html ")).url.segmentTexts.flatten = bytes "a/b.html" := by
    decide +kernel
  refine (serverProcessGet_inBounds (by decide) (by decide +kernel) (by decide +kernel) rfl noFiles
    (httpResponseInit .ok200) false zeroArray zeroArray).mpr ?_
  rw [htext]
  exact ⟨by decide, fun _ hdot => absurd (by decide) hdot⟩

end OServer
