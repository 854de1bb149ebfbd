/-
  OServer/ServerType.lean
  =======================
  **The type of a file that is served (`server_process_get`).**

  The type is read off the text behind the last dot.  The dot is searched for in the whole
  path, so that for a name without one it may be found in a directory above it, or in the
  document root.

    * `serverProcessGet_type`        — the field that is added;
    * `mediaType_eq_componentType`   — where the name of the file decides;
    * `serverProcessGet_component`   — the same for an accepted target whose path fits in its
                                       array.
-/
import OServer.ServerPath
import OServer.HttpHeaderMap

namespace OServer

open CString Segments

/-! ## 1. Names -/

/-- The last component of a path. -/
def fileName (path : List UInt8) : List UInt8 := afterLast '/'.toUInt8 path

/-- The media type that belongs to the name of a file. -/
def componentType (path : List UInt8) : Option (List UInt8) :=
  if '.'.toUInt8 ∈ fileName path then
    some (contentType (afterLast '.'.toUInt8 (fileName path)))
  else none

/-- The response has the media type that belongs to the name of the file, and none for a name
    that has no type. -/
def TypesByName (res : HttpResponse) (path : List UInt8) : Prop :=
  ∃ m, res.headers.Maps m ∧ (m headerContentType).map (·.value) = componentType path

/-- The dots below the root `root` and in it do not matter: a directory is asked for, or the name
    has a dot of its own, or there is none at all. -/
def DotsDecided (root t : List UInt8) : Prop :=
  NamesDirectory t ∨ '.'.toUInt8 ∈ fileName t ∨ '.'.toUInt8 ∉ root ∧ '.'.toUInt8 ∉ t

/-! ## 2. The field that is added -/

/-- Nothing is added before the file is opened. -/
theorem openFile_headers (fs : FileSystem) (path : List UInt8) (res : HttpResponse)
    (keepAlive : Bool) : (openFile fs path res keepAlive).1.headers = res.headers := by
  cases found fs path res keepAlive with
  | nothing status hopen => rw [hopen]
  | file info fd _ _ hopen => rw [hopen]

theorem peek_ne_nul {p : List UInt8} (hne : p ≠ []) (hnul : NUL ∉ p) : peek p ≠ NUL := by
  cases p with
  | nil => exact absurd rfl hne
  | cons c p => exact fun h => hnul (List.mem_cons.mpr (Or.inl h.symm))

/-- **The type that is added** is the media type of the path. -/
theorem serverProcessGet_type (root : List UInt8) (fs : FileSystem) (req : HttpRequest)
    (res : HttpResponse) (keepAlive : Bool) :
    ∃ m, (serverProcessGet root fs req res keepAlive).1.headers.Maps m ∧
      (m headerContentType).map (·.value) = mediaType (servedPath root req.url) := by
  have hinit : (openFile fs (servedPath root req.url) (httpResponseReset res .ok200)
      keepAlive).1.headers.Maps fun _ => none := by
    rw [openFile_headers]
    exact HttpHeaderCollection.maps_init
  unfold serverProcessGet mediaType
  dsimp only
  generalize openFile fs (servedPath root req.url) (httpResponseReset res .ok200) keepAlive = r
    at hinit ⊢
  have hnum := peek_ne_nul (bytes_toString_ne_nil r.2.1) (nul_not_mem_toString r.2.1)
  have hlength := hinit.add headerContentLength (bytes (toString r.2.1)).length hnum
  cases hdot : strrchr (servedPath root req.url) '.'.toUInt8 with
  | none =>
    refine ⟨_, hlength, ?_⟩
    rw [addFirst_apply]
    rfl
  | some dot =>
    have htype : mediaType (servedPath root req.url) =
        some (contentType (cstr ((servedPath root req.url).drop (dot + 1)))) := by
      rw [mediaType, hdot]
      rfl
    rcases nul_not_mem_mediaType htype with ⟨hnul, hne⟩
    refine ⟨_, hlength.add headerContentType _ (peek_ne_nul hne hnul), ?_⟩
    rw [addFirst_apply, addFirst_apply]
    simp [headerContentType, headerContentLength]

/-- What is added agrees with the name of the file. -/
theorem typesByName_iff {root : List UInt8} {fs : FileSystem} {req : HttpRequest}
    {res : HttpResponse} {keepAlive : Bool} :
    TypesByName (serverProcessGet root fs req res keepAlive).1 (servedPath root req.url) ↔
      mediaType (servedPath root req.url) = componentType (servedPath root req.url) := by
  obtain ⟨m, hm, hvalue⟩ := serverProcessGet_type root fs req res keepAlive
  constructor
  · rintro ⟨m', hm', htype⟩
    rw [← hvalue, hm.unique hm']
    exact htype
  · intro h
    exact ⟨m, hm, hvalue.trans h⟩

/-! ## 3. Dots -/

theorem mediaType_eq_componentType {path : List UInt8} (hpath : NUL ∉ path) :
    mediaType path = componentType path ↔ ('.'.toUInt8 ∈ fileName path ∨ '.'.toUInt8 ∉ path) := by
  have hsuffix : fileName path <:+ path := afterLast_isSuffix _ path
  rw [mediaType_eq, cstr_eq_self hpath, componentType]
  by_cases hname : '.'.toUInt8 ∈ fileName path
  · rw [if_pos (hsuffix.subset hname), if_pos hname, afterLast_suffix hsuffix hname]
    exact iff_of_true rfl (Or.inl hname)
  · rw [if_neg hname]
    by_cases hdot : '.'.toUInt8 ∈ path
    · rw [if_pos hdot]
      exact iff_of_false (fun h => nomatch h) fun h => h.elim hname fun hnot => hnot hdot
    · rw [if_neg hdot]
      exact iff_of_true rfl (Or.inr hdot)

/-- The name of the file that is served. -/
theorem servedPath_dots (root : List UInt8) (url : HttpUrl) :
    ('.'.toUInt8 ∈ fileName (servedPath root url) ∨ '.'.toUInt8 ∉ servedPath root url) ↔
      DotsDecided root url.segmentTexts.flatten := by
  rw [servedPath_eq, if_congr (getLast?_root root _) rfl rfl]
  generalize url.segmentTexts.flatten = t
  by_cases hdir : NamesDirectory t
  · rw [if_pos hdir]
    obtain ⟨u, hu⟩ := List.getLast?_eq_some_iff.mp ((getLast?_root root t).mpr hdir)
    have hname : fileName (root ++ bytes "/" ++ t ++ bytes "index.html") = bytes "index.html" := by
      have hindex : '/'.toUInt8 ∉ bytes "index.html" := by decide
      rw [hu, List.append_assoc]
      exact afterLast_append hindex u
    rw [hname]
    exact iff_of_true (Or.inl (by decide)) (Or.inl hdir)
  · have hname : fileName (root ++ bytes "/" ++ t) = fileName t := by
      by_cases hslash : '/'.toUInt8 ∈ t
      · exact afterLast_suffix (List.suffix_append _ t) hslash
      · rw [fileName, fileName, afterLast_self hslash, List.append_assoc]
        exact afterLast_append hslash root
    have hdot : '.'.toUInt8 ∉ bytes "/" := by decide
    rw [if_neg hdir, hname, DotsDecided, or_iff_right hdir]
    simp only [List.mem_append, not_or, hdot, not_false_eq_true, and_true]

/-! ## 4. Accepted targets -/

/-- The arrays hold what is written to them, and the response has the type that belongs to the
    name of the file. -/
structure TypesComponent (root : List UInt8) (fs : FileSystem) (req : HttpRequest)
    (res : HttpResponse) (keepAlive : Bool) (path tmp : PathArray) : Prop where
  arrays : (serverProcessGetArrays root fs req res keepAlive path tmp).isSome = true
  type : TypesByName (serverProcessGet root fs req res keepAlive).1 (servedPath root req.url)

/-- Where the name decides, the type is short, and the path is all that has to fit. -/
theorem pathFits_of_dots {root t : List UInt8} (h : DotsDecided root t) :
    PathFits root t ↔
      root.length + 1 + t.length + (if NamesDirectory t then 10 else 0) ≤ pathMax := by
  refine ⟨fun hfits => hfits.path, fun hpath => ⟨hpath, fun hdir hseg hdot => ?_⟩⟩
  rcases h with h | h | h
  · exact absurd h hdir
  · exact absurd ((afterLast_isSuffix _ t).subset h) hseg
  · exact absurd hdot h.1

/-- **The name of the file decides about its type** exactly when no other dot can be taken for
    that of the name, and the path fits in its array. -/
theorem serverProcessGet_component {root data : List UInt8} {req : HttpRequest} (hroot : NUL ∉ root)
    (hret : (httpUrlParse data httpUrlInit).ret = 0)
    (hlen : 0 < (httpUrlParse data httpUrlInit).parseLen)
    (hurl : req.url = (httpUrlParse data httpUrlInit).val) (fs : FileSystem) (res : HttpResponse)
    (keepAlive : Bool) (path tmp : PathArray) :
    TypesComponent root fs req res keepAlive path tmp ↔
      DotsDecided root req.url.segmentTexts.flatten ∧
        root.length + 1 + req.url.segmentTexts.flatten.length +
          (if NamesDirectory req.url.segmentTexts.flatten then 10 else 0) ≤ pathMax := by
  have hsegs := httpUrlParse_segmentsOk hret hlen
  rw [← hurl] at hsegs
  have hpath := nul_not_mem_servedPath hroot hsegs
  have harrays := serverProcessGetArrays_holds hsegs.copied hpath fs res keepAlive path tmp
  rw [arraysHold_iff hpath hsegs.short] at harrays
  have htype := @typesByName_iff root fs req res keepAlive
  rw [mediaType_eq_componentType hpath, servedPath_dots] at htype
  constructor
  · intro h
    have hdots := htype.mp h.type
    exact ⟨hdots, (pathFits_of_dots hdots).mp (harrays.mp h.arrays)⟩
  · rintro ⟨hdots, hfits⟩
    exact ⟨harrays.mpr ((pathFits_of_dots hdots).mpr hfits), htype.mpr hdots⟩

/-- The file `a` below the root `/srv.d` is given the type `text/d/a`, and below a root of 4095
    bytes its path is written over the end of its array. -/
theorem serverProcessGet_not_component :
    (httpUrlParse (bytes "/a ") httpUrlInit).ret = 0 ∧
    0 < (httpUrlParse (bytes "/a ") httpUrlInit).parseLen ∧
    NUL ∉ bytes "/srv.d" ∧
    mediaType (servedPath (bytes "/srv.d") (targetRequest (bytes "/a ")).url) =
      some (bytes "text/d/a") ∧
    ¬TypesComponent (bytes "/srv.d") noFiles (targetRequest (bytes "/a ")) (httpResponseInit .ok200)
      false zeroArray zeroArray ∧
    NUL ∉ longRoot ∧ longRoot.length = pathMax - 1 ∧
    ¬TypesComponent longRoot noFiles (targetRequest (bytes "/a ")) (httpResponseInit .ok200)
      false zeroArray zeroArray := by
  have hret : (httpUrlParse (bytes "/a ") httpUrlInit).ret = 0 := by decide +kernel
  have hlen : 0 < (httpUrlParse (bytes "/a ") httpUrlInit).parseLen := by decide +kernel
  refine ⟨hret, hlen, by decide, by decide +kernel, fun h => ?_, longRoot_spec.1, longRoot_spec.2,
    fun h => ?_⟩
  · have htype := typesByName_iff.mp h.type
    revert htype
    decide +kernel
  · have harrays := h.arrays
    rw [serverProcessGetArrays_longRoot hret hlen] at harrays
    cases harrays

theorem serverProcessGet_component_page :
    TypesComponent (bytes "/srv.d") noFiles (targetRequest (bytes "/a/b.html "))
      (httpResponseInit .ok200) false zeroArray zeroArray := by
  have htext : (targetRequest (bytes "/a/b.html ")).url.segmentTexts.flatten = bytes "a/b.html" := by
    decide +kernel
  refine (serverProcessGet_component (by decide) (by decide +kernel) (by decide +kernel) rfl noFiles
    (httpResponseInit .ok200) false zeroArray zeroArray).mpr ?_
  rw [htext]
  exact ⟨Or.inr (Or.inl (by decide)), by decide⟩

end OServer
