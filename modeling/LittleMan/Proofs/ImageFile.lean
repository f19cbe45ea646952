import Mathlib.Tactic.Common
import LittleMan.Listing
import LittleMan.Proofs.Listing

/-!
# Image files read back

The text of an image file holds its words again. On each line the word stands in front of the
comment, with nothing but blanks behind it, and the lines in front of the image are all comment.
-/

namespace LittleMan.ImageFile

/-! ## The lines of an image file -/

/-- A line of an image file up to its comment. -/
def front (w : Word) : List Char := (Text.padRight 11 w.text).toList ++ [' ']

def body (a : Architecture) (w : Word) (n : Nat) : List Char :=
  front w ++ '/' :: '/' :: (" ".toList ++ (Listing.address n).toList ++ ": ".toList ++
    (Item.guess a w).text.toList)

def heading (a : Architecture) (size : Nat) : List (List Char) :=
  [['/', '/'] ++ (" LMC memory image (".toList ++ a.name.toList ++ " machine)".toList),
    ['/', '/'] ++ (" ".toList ++ (Numeral.ofNat size).toList ++ " words".toList), []]

def rows (a : Architecture) (image : List Word) : List (List Char) :=
  heading a image.length ++ image.zipIdx.map fun (w, n) => body a w n

theorem toList_line (a : Architecture) (w : Word) (n : Nat) :
    (line a w n).toList = body a w n ++ ['\n'] := by
  unfold line body front
  simp only [String.toList_append, String.reduceToList, List.append_assoc, List.cons_append,
    List.nil_append]

theorem toList_header (a : Architecture) (size : Nat) :
    (header a size).toList = Text.terminated (heading a size) := by
  unfold header heading Text.terminated
  simp only [String.toList_append, String.reduceToList, List.flatMap_cons, List.flatMap_nil,
    List.cons_append, List.nil_append, List.append_assoc]

theorem toList_render (a : Architecture) (image : List Word) :
    (render a image).toList = Text.terminated (rows a image) := by
  unfold render rows
  rw [String.toList_append, toList_header, Text.terminated_append, String.toList_join]
  simp [Text.terminated, List.flatMap_map, toList_line]

theorem front_eq (w : Word) : ∃ k, front w = w.text.toList ++ List.replicate k ' ' := by
  refine ⟨11 - w.text.length + 1, ?_⟩
  unfold front Text.padRight Text.fill
  simp only [String.toList_append, String.toList_ofList, List.replicate_succ', List.append_assoc]

theorem not_mem_front {w : Word} {c : Char} (hc : ¬ Text.Plain c) (hb : c ≠ ' ') :
    c ∉ front w := by
  have hw : c ∉ w.text.toList := fun h => hc (Numeral.plain_ofInt h)
  obtain ⟨k, hk⟩ := front_eq w
  simp [hk, hw, hb]

theorem not_mem_heading {a : Architecture} {size : Nat} {l : List Char} {c : Char}
    (hc : c = '\n' ∨ c = '\r') (hl : l ∈ heading a size) : c ∉ l := by
  have hsize : c ∉ (Numeral.ofNat size).toList := fun h => by
    rcases hc with rfl | rfl <;> exact absurd (Numeral.plain_ofNat h) (by decide)
  simp only [heading, List.mem_cons, List.not_mem_nil, or_false] at hl
  rcases hl with rfl | rfl | rfl
  · rcases hc with rfl | rfl <;> cases a <;> decide
  · rcases hc with rfl | rfl <;> simp [hsize]
  · simp

theorem not_mem_body {a : Architecture} {w : Word} {n : Nat} {c : Char} (hc : ¬ Text.Plain c)
    (hs : c ∉ " /:".toList) : c ∉ body a w n := by
  have hs' : c ≠ ' ' ∧ c ≠ '/' ∧ c ≠ ':' := by simpa using hs
  have hitem := Assembly.not_mem_text (Item.writable_guess a w) hc hs'.1
  simp [body, not_mem_front hc, Listing.not_mem_address hc, hitem, hs']

theorem not_mem_rows {a : Architecture} {image : List Word} {l : List Char} {c : Char}
    (hc : c = '\n' ∨ c = '\r') (hl : l ∈ rows a image) : c ∉ l := by
  unfold rows at hl
  rcases List.mem_append.mp hl with hl | hl
  · exact not_mem_heading hc hl
  · obtain ⟨⟨w, n⟩, -, rfl⟩ := List.mem_map.mp hl
    rcases hc with rfl | rfl <;> exact not_mem_body (by decide) (by decide)

theorem lines_render (a : Architecture) (image : List Word) :
    Text.lines (render a image).toList = rows a image := by
  rw [toList_render]
  exact Text.lines_terminated _ (fun l => not_mem_rows (Or.inl rfl))
    (fun l => not_mem_rows (Or.inr rfl))

/-! ## Reading them -/

theorem content_heading {a : Architecture} {size : Nat} {l : List Char}
    (h : l ∈ heading a size) : content l = [] := by
  have hcomment : ∀ rest, content (['/', '/'] ++ rest) = [] := fun rest => by
    unfold content
    rw [show ['/', '/'] ++ rest = [] ++ '/' :: '/' :: rest from rfl,
      Text.uncommented_append _ _ (by simp)]
    rfl
  simp only [heading, List.mem_cons, List.not_mem_nil, or_false] at h
  rcases h with rfl | rfl | rfl
  · exact hcomment _
  · exact hcomment _
  · rfl

theorem content_body (a : Architecture) (w : Word) (n : Nat) :
    content (body a w n) = w.text.toList := by
  obtain ⟨k, hk⟩ := front_eq w
  unfold content body
  rw [Text.uncommented_append _ _ (not_mem_front (by decide) (by decide)), hk]
  apply Text.trim_append_blanks
  · intro c hc
    exact (Numeral.plain_ofInt hc).isBlank
  · intro c hc
    rw [List.eq_of_mem_replicate hc]
    decide

theorem parseFrom_blank (image : Array Word) (n : Nat) {ls rest : List (List Char)}
    (h : ∀ l ∈ ls, content l = []) :
    parseFrom image n (ls ++ rest) = parseFrom image (n + ls.length) rest := by
  induction ls generalizing n with
  | nil => rfl
  | cons l ls ih =>
    rw [List.cons_append, parseFrom, if_pos (h l List.mem_cons_self),
      ih (n + 1) fun l' hl' => h l' (List.mem_cons_of_mem _ hl'), List.length_cons]
    congr 1
    omega

theorem parseFrom_words (a : Architecture) (image : Array Word) (ws : List Word) (n k : Nat) :
    parseFrom image n ((ws.zipIdx k).map fun (w, i) => body a w i) = .ok (image.toList ++ ws) := by
  induction ws generalizing image n k with
  | nil => simp [parseFrom]
  | cons w ws ih =>
    rw [List.zipIdx_cons, List.map_cons, parseFrom]
    simp only [content_body, if_neg w.toList_text_ne_nil, Word.read?_text]
    rw [ih]
    simp

theorem parse_render (a : Architecture) (image : List Word) :
    parse (render a image) = .ok image := by
  unfold parse
  rw [lines_render]
  unfold rows
  rw [parseFrom_blank _ _ fun l hl => content_heading hl, parseFrom_words]
  simp

end LittleMan.ImageFile
