/-
  OServer/ServerRoot.lean
  =======================
  **Which files are served (`server_process_get`, `gen_path`).**

  The path that is looked up is the document root, a `/`, and the bytes of the segments
  on the path stack.  The walk of the path parser has entered all of these segments, so
  that none of them names the directory above.
-/
import OServer.HttpUrlTarget
import OServer.ServerProcess

namespace OServer

open CString Segments

/-! ## 1. Components -/

/-- What a component of a path below the root may be. -/
structure ComponentOk (c : List UInt8) : Prop where
  notHere : c ≠ bytes "."
  notUp : c ≠ bytes ".."
  isPath : ∀ b ∈ c, isPath b = true
  noSlash : '/'.toUInt8 ∉ c

/-- The path is the root, a `/`, and components separated by `/`. -/
def BelowRoot (root path : List UInt8) : Prop :=
  ∃ comps, path = root ++ '/'.toUInt8 :: List.intercalate ['/'.toUInt8] comps ∧
    ∀ c ∈ comps, ComponentOk c

theorem servedPath_eq (root : List UInt8) (url : HttpUrl) :
    servedPath root url =
      if (root ++ bytes "/" ++ url.segmentTexts.flatten).getLast? = some '/'.toUInt8 then
        root ++ bytes "/" ++ url.segmentTexts.flatten ++ bytes "index.html"
      else root ++ bytes "/" ++ url.segmentTexts.flatten := by
  have hfold : ∀ (stack : List HttpUrlPathSeg) (path : List UInt8),
      stack.foldl (genPath url) path = path ++ (stack.map (·.text url.url)).flatten := by
    intro stack
    induction stack with
    | nil => exact fun path => (List.append_nil path).symm
    | cons s stack ih =>
      intro path
      rw [List.foldl_cons, ih, List.map_cons, List.flatten_cons, ← List.append_assoc]
      rfl
  unfold servedPath
  rw [hfold]
  rfl

/-- An entered segment is a component, with or without the `/` behind it. -/
theorem componentOk_of_enter {w : List UInt8} (hpath : ∀ b ∈ w, isPath b = true)
    (hslash : '/'.toUInt8 ∉ w) (h : segMove w = .enter ∨ segMove (w ++ ['/'.toUInt8]) = .enter) :
    ComponentOk w where
  notHere := by
    rintro rfl
    revert h
    decide
  notUp := by
    rintro rfl
    revert h
    decide
  isPath := hpath
  noSlash := hslash

theorem componentOk_nil : ComponentOk [] :=
  ⟨by decide, by decide, fun _ hb => absurd hb List.not_mem_nil, List.not_mem_nil⟩

theorem componentOk_index : ComponentOk (bytes "index.html") :=
  ⟨by decide, by decide, by decide, by decide⟩

/-- What the walk leaves: components that are ended by a `/`, and a last one that is
    not, which may be empty. -/
theorem pathSegments_components {t : List UInt8} {segs : List (List UInt8)}
    (h : pathSegments t = some segs) :
    ∃ (comps : List (List UInt8)) (c : List UInt8), segs.flatten = (comps.map (· ++ ['/'.toUInt8])).flatten ++ c ∧
      (∀ d ∈ comps, ComponentOk d) ∧ ComponentOk c := by
  unfold pathSegments at h
  split at h
  next hall =>
    rcases segments_ends '/'.toUInt8 t with ⟨ws, w, hsegs, hws, hw⟩
    have hsub := walk_sublist h
    have henter := walk_entered h fun s hs => absurd hs List.not_mem_nil
    have hpath : ∀ v ∈ segments '/'.toUInt8 t, ∀ b ∈ v, isPath b = true := by
      intro v hv b hb
      have ht : b ∈ t := segments_flatten '/'.toUInt8 t ▸ List.mem_flatten.mpr ⟨v, hv, hb⟩
      exact List.all_eq_true.mp hall b ht
    rw [List.nil_append] at hsub
    rw [hsegs] at hsub hpath
    rcases List.sublist_append_iff.mp hsub with ⟨front, last, rfl, hfront, hlast⟩
    rcases List.sublist_map_iff.mp hfront with ⟨comps, hcomps, rfl⟩
    have hokay : ∀ d ∈ comps, ComponentOk d := by
      intro d hd
      have hd' : d ++ ['/'.toUInt8] ∈ comps.map (· ++ ['/'.toUInt8]) :=
        List.mem_map.mpr ⟨d, hd, rfl⟩
      have hbytes := hpath _ (List.mem_append_left _ (hfront.subset hd'))
      exact componentOk_of_enter (fun b hb => hbytes b (List.mem_append_left _ hb))
        (hws d (hcomps.subset hd)) (Or.inr (henter _ (List.mem_append_left _ hd')))
    rw [List.flatten_append]
    rcases List.sublist_singleton.mp hlast with rfl | rfl
    · exact ⟨comps, [], rfl, hokay, componentOk_nil⟩
    · have hlast' : w ∈ comps.map (· ++ ['/'.toUInt8]) ++ [w] :=
        List.mem_append_right _ (List.mem_singleton_self w)
      have hbytes := hpath w (hsub.subset hlast')
      refine ⟨comps, w, ?_, hokay, componentOk_of_enter hbytes hw (Or.inl (henter w hlast'))⟩
      rw [List.flatten_singleton]
  next => cases h

/-! ## 2. Containment -/

theorem intercalate_append_singleton (sep : UInt8) (comps : List (List UInt8)) (c : List UInt8) :
    List.intercalate [sep] (comps ++ [c]) = (comps.map (· ++ [sep])).flatten ++ c := by
  induction comps with
  | nil => simp [List.intercalate]
  | cons d comps ih =>
    rw [List.cons_append, List.intercalate_cons_of_ne_nil (List.concat_ne_nil c comps), ih]
    simp

/-- **Nothing outside the document root is looked up.**  This is about the bytes of the path as
    they are built; when the array `path` has room for them is `serverProcessGet_inBounds`. -/
theorem servedPath_belowRoot (root : List UInt8) {data : List UInt8}
    (hret : (httpUrlParse data httpUrlInit).ret = 0)
    (hlen : 0 < (httpUrlParse data httpUrlInit).parseLen) :
    BelowRoot root (servedPath root (httpUrlParse data httpUrlInit).val) := by
  rcases httpUrlParse_accepted hret hlen with ⟨⟨-, -, -, hok⟩, hval⟩
  rcases urlParseTarget_stack rfl store_url_ne_nil hok with ⟨t, -, ht⟩
  rw [← hval] at ht
  rcases pathSegments_components ht with ⟨comps, c, hflat, hcomps, hc⟩
  rw [servedPath_eq, hflat]
  have hall : ∀ {d}, ComponentOk d → ∀ e ∈ comps ++ [d], ComponentOk e := by
    intro d hd e he
    rcases List.mem_append.mp he with he | he
    · exact hcomps e he
    · exact List.mem_singleton.mp he ▸ hd
  split
  next hslash =>
    -- the last component is empty, and `index.html` takes its place
    have hnil : c = [] := by
      by_contra hne
      rw [← List.append_assoc, List.getLast?_append_of_ne_nil _ hne] at hslash
      exact hc.noSlash (List.mem_of_getLast? hslash)
    refine ⟨comps ++ [bytes "index.html"], ?_, hall componentOk_index⟩
    rw [intercalate_append_singleton, hnil]
    simp [bytes]
  next =>
    refine ⟨comps ++ [c], ?_, hall hc⟩
    rw [intercalate_append_singleton]
    simp [bytes]

theorem servedPath_belowRoot_dots :
    BelowRoot (bytes "/srv") (servedPath (bytes "/srv")
      (httpUrlParse (bytes "/a/../b/./c?d ") httpUrlInit).val) :=
  servedPath_belowRoot (bytes "/srv") (by decide +kernel) (by decide +kernel)

end OServer
