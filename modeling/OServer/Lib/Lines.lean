/-
  OServer/Lib/Lines.lean
  ======================
  **Texts cut at each CR LF, and heads that a blank line ends.**

  `cut` gives the pieces between the ends of lines; the last of them is not ended.  A
  head is some lines that are not blank, and a blank one behind them; what follows the
  blank line is the body, whatever it holds.

    * `cut_line`, `ofLines_cut` — the first line of a text, and all its lines;
    * `Head.unique`             — a text is split into head and body in one way only;
    * `head_ofLines`            — lines that are written one after the other end the head
                                  where the first of them is blank.
-/
import OServer.Lib.CString
import Mathlib.Data.List.Infix

namespace Lines

open CString

/-! ## 1. Cutting -/

/-- Each line with its end. -/
def ofLines (ls : List (List UInt8)) : List UInt8 := ls.flatMap (· ++ [CR, LF])

/-- No line ends within the text. -/
def Plain (l : List UInt8) : Prop := ¬[CR, LF] <:+: l

/-- One byte more at the start of the first piece. -/
def onFirst (c : UInt8) : List (List UInt8) → List (List UInt8)
  | [] => [[c]]
  | l :: ls => (c :: l) :: ls

/-- The pieces between the ends of lines; there is always a last one, which may be empty. -/
def cut : List UInt8 → List (List UInt8)
  | [] => [[]]
  | [c] => [[c]]
  | c :: d :: t => if c = CR ∧ d = LF then [] :: cut t else onFirst c (cut (d :: t))

theorem plain_of_not_mem {l : List UInt8} (h : CR ∉ l) : Plain l :=
  fun hin => h (hin.subset List.mem_cons_self)

theorem Plain.tail {c : UInt8} {l : List UInt8} (h : Plain (c :: l)) : Plain l :=
  fun hin => h (List.infix_cons hin)

/-- **The first line.** -/
theorem cut_line {l : List UInt8} (hl : Plain l) (t : List UInt8) :
    cut (l ++ CR :: LF :: t) = l :: cut t := by
  induction l with
  | nil => exact if_pos ⟨rfl, rfl⟩
  | cons c l ih =>
    have hrest := ih hl.tail
    cases l with
    | nil =>
      rw [List.nil_append] at hrest
      have hne : ¬(c = CR ∧ CR = LF) := fun h => absurd h.2 (by decide)
      rw [List.singleton_append, cut, if_neg hne, hrest]
      rfl
    | cons d l =>
      have hne : ¬(c = CR ∧ d = LF) := by
        rintro ⟨rfl, rfl⟩
        exact hl (List.prefix_append [CR, LF] l).isInfix
      rw [List.cons_append] at hrest
      rw [List.cons_append, List.cons_append, cut, if_neg hne, hrest]
      rfl

theorem cut_ofLines {ls : List (List UInt8)} (hls : ∀ l ∈ ls, Plain l) (t : List UInt8) :
    cut (ofLines ls ++ t) = ls ++ cut t := by
  induction ls with
  | nil => rfl
  | cons l ls ih =>
    have hcons : ofLines (l :: ls) ++ t = l ++ CR :: LF :: (ofLines ls ++ t) := by
      simp [ofLines, List.append_assoc]
    rw [hcons, cut_line (hls l List.mem_cons_self),
      ih fun l' hl' => hls l' (List.mem_cons_of_mem _ hl')]
    rfl

/-- **All lines**: nothing is lost, and none of them has an end within. -/
theorem ofLines_cut (t : List UInt8) :
    ofLines (cut t) = t ++ [CR, LF] ∧ (∀ l ∈ cut t, Plain l) ∧ cut t ≠ [] := by
  have hsingle : ∀ c : UInt8, Plain [c] := fun c h => absurd h.length_le (by simp)
  have hnil : Plain [] := fun h => absurd h.length_le (by decide)
  induction t using cut.induct with
  | case1 => exact ⟨rfl, List.forall_mem_singleton.mpr hnil, List.cons_ne_nil _ _⟩
  | case2 c => exact ⟨rfl, List.forall_mem_singleton.mpr (hsingle c), List.cons_ne_nil _ _⟩
  | case3 c d t hend ih =>
    obtain ⟨rfl, rfl⟩ := hend
    rw [cut, if_pos ⟨rfl, rfl⟩]
    refine ⟨?_, List.forall_mem_cons.mpr ⟨hnil, ih.2.1⟩, List.cons_ne_nil _ _⟩
    have hcons : ofLines ([] :: cut t) = [CR, LF] ++ ofLines (cut t) := rfl
    rw [hcons, ih.1]
    rfl
  | case4 c d t hend ih =>
    rw [cut, if_neg hend]
    cases hcut : cut (d :: t) with
    | nil => exact absurd hcut ih.2.2
    | cons l ls =>
      rw [hcut] at ih
      obtain ⟨hjoin, hplain, -⟩ := ih
      refine ⟨?_, ?_, List.cons_ne_nil _ _⟩
      · have hcons : ofLines (onFirst c (l :: ls)) = c :: ofLines (l :: ls) := rfl
        rw [hcons, hjoin]
        rfl
      · refine List.forall_mem_cons.mpr ⟨?_, fun l' hl' => hplain l' (List.mem_cons_of_mem _ hl')⟩
        -- an end of a line across the new byte would be the start of the text
        intro hin
        rcases List.infix_cons_iff.mp hin with hpre | hin
        · obtain ⟨hc, hpre⟩ := List.cons_prefix_cons.mp hpre
          cases l with
          | nil => exact absurd hpre.length_le (by decide)
          | cons e l =>
            obtain ⟨he, -⟩ := List.cons_prefix_cons.mp hpre
            have hd : e = d := (List.cons.inj hjoin).1
            exact hend ⟨hc.symm, hd ▸ he.symm⟩
        · exact hplain l List.mem_cons_self hin

/-- A text without CR in front of another one is a part of its first piece. -/
theorem cut_append {p : List UInt8} (hp : CR ∉ p) (t : List UInt8) :
    ∃ l, cut t = l :: (cut t).tail ∧ cut (p ++ t) = (p ++ l) :: (cut t).tail := by
  induction p with
  | nil =>
    obtain ⟨l, ls, hcut⟩ := List.exists_cons_of_ne_nil (ofLines_cut t).2.2
    exact ⟨l, by rw [hcut]; rfl, by rw [List.nil_append, hcut]; rfl⟩
  | cons c p ih =>
    rw [List.mem_cons, not_or] at hp
    obtain ⟨l, hl, hcut⟩ := ih hp.2
    refine ⟨l, hl, ?_⟩
    have hstep : ∀ q, cut (c :: q) = onFirst c (cut q) := by
      intro q
      cases q with
      | nil => rfl
      | cons d q =>
        have hne : ¬(c = CR ∧ d = LF) := fun h => hp.1 h.1.symm
        rw [cut, if_neg hne]
    rw [List.cons_append, hstep, hcut]
    rfl

/-- A text without CR is one piece. -/
theorem cut_eq_self {p : List UInt8} (hp : CR ∉ p) : cut p = [p] := by
  obtain ⟨l, hl, hcut⟩ := cut_append hp []
  obtain rfl : [] = l := (List.cons.inj hl).1
  rw [List.append_nil] at hcut
  rw [hcut]
  rfl

/-! ## 2. Heads -/

/-- The text begins with these lines and a blank one, and the body follows. -/
structure Head (text : List UInt8) (lines : List (List UInt8)) (body : List UInt8) : Prop where
  text_eq : text = ofLines lines ++ [CR, LF] ++ body
  plain : ∀ l ∈ lines, Plain l
  ne_nil : ∀ l ∈ lines, l ≠ []

theorem Head.lines_eq {text : List UInt8} {lines : List (List UInt8)} {body : List UInt8}
    (h : Head text lines body) : lines = (cut text).takeWhile (· ≠ []) := by
  have hcut : cut text = lines ++ [] :: cut body := by
    rw [h.text_eq, List.append_assoc, cut_ofLines h.plain]
    exact congrArg (lines ++ ·) (if_pos ⟨rfl, rfl⟩)
  rw [hcut, List.takeWhile_append_of_pos fun l hl => decide_eq_true (h.ne_nil l hl),
    List.takeWhile_cons_of_neg (by simp), List.append_nil]

/-- **Where the head ends is decided by the text.** -/
theorem Head.unique {text : List UInt8} {lines lines' : List (List UInt8)} {body body' : List UInt8}
    (h : Head text lines body) (h' : Head text lines' body') : lines = lines' ∧ body = body' := by
  obtain rfl : lines = lines' := h.lines_eq.trans h'.lines_eq.symm
  exact ⟨rfl, List.append_cancel_left (h.text_eq.symm.trans h'.text_eq)⟩

/-- What stands behind the first blank one of some lines and the blank one that follows them
    all; nothing when only that one is blank. -/
def behindBlank (ls : List (List UInt8)) : List UInt8 :=
  match ls.dropWhile (· ≠ []) with
  | [] => []
  | _ :: ls => ofLines ls ++ [CR, LF]

theorem behindBlank_cons {l : List UInt8} (hl : l ≠ []) (ls : List (List UInt8)) :
    behindBlank (l :: ls) = behindBlank ls := by
  unfold behindBlank
  rw [List.dropWhile_cons_of_pos (by simpa using hl)]

theorem behindBlank_append {ls : List (List UInt8)} (hls : ∀ l ∈ ls, l ≠ [])
    (ms : List (List UInt8)) : behindBlank (ls ++ ms) = behindBlank ms := by
  induction ls with
  | nil => rfl
  | cons l ls ih =>
    rw [List.cons_append, behindBlank_cons (hls l List.mem_cons_self)]
    exact ih fun l' hl' => hls l' (List.mem_cons_of_mem _ hl')

/-- **Lines in front of a blank one.** -/
theorem head_ofLines {ls : List (List UInt8)} (hls : ∀ l ∈ ls, Plain l) (body : List UInt8) :
    Head (ofLines ls ++ [CR, LF] ++ body) (ls.takeWhile (· ≠ [])) (behindBlank ls ++ body) where
  text_eq := by
    have hsplit : ofLines ls ++ [CR, LF] = ofLines (ls.takeWhile (· ≠ [])) ++ [CR, LF] ++
        behindBlank ls := by
      unfold behindBlank
      conv_lhs => rw [← List.takeWhile_append_dropWhile (p := (· ≠ [])) (l := ls)]
      cases hrest : ls.dropWhile (· ≠ []) with
      | nil => simp
      | cons l rest =>
        have hl : l = [] := by
          have hhead := List.head?_dropWhile_not (· ≠ []) ls
          rw [hrest] at hhead
          simpa using hhead
        subst hl
        simp [ofLines, List.append_assoc]
    rw [hsplit, List.append_assoc]
  plain := fun l hl => hls l ((List.takeWhile_prefix _).subset hl)
  ne_nil := fun l hl => by simpa using List.mem_takeWhile_imp hl

end Lines
