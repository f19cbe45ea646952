import Mathlib.Data.List.DropRight
import Mathlib.Tactic.Common
import LittleMan.Listing
import LittleMan.Proofs.Assembly.Spelling

/-!
# Listings assemble again

The listing of a memory image, given to the assembler, makes that image again. Each line spells an
item in the one form that `makeItem` gives the item back from, whatever guess the listing made at
the word, and the rest of the line is blanks and a comment.
-/

namespace LittleMan.Listing

open Assembly

/-! ## The lines of a listing -/

/-- A line of a listing up to its comment. -/
def front (a : Architecture) (w : Word) : List Char :=
  "    ".toList ++ (Text.padRight 12 (Item.guess a w).text).toList ++ [' ']

def body (a : Architecture) (w : Word) (n : Nat) : List Char :=
  front a w ++ '/' :: '/' :: (" ".toList ++ (address n).toList ++ ": ".toList ++ w.text.toList)

theorem toList_line (a : Architecture) (w : Word) (n : Nat) :
    (line a w n).toList = body a w n ++ ['\n'] := by
  unfold line body front
  simp only [String.toList_append, String.reduceToList, List.append_assoc, List.cons_append,
    List.nil_append]

theorem front_eq (a : Architecture) (w : Word) :
    ∃ k, front a w =
      "    ".toList ++ ((Item.guess a w).text.toList ++ List.replicate (k + 1) ' ') := by
  refine ⟨12 - (Item.guess a w).text.length, ?_⟩
  unfold front Text.padRight Text.fill
  simp only [String.toList_append, String.toList_ofList, List.replicate_succ', List.append_assoc]

theorem words_front (a : Architecture) (w : Word) :
    Text.words (front a w) = Text.words (Item.guess a w).text.toList := by
  obtain ⟨k, hk⟩ := front_eq a w
  have hindent : "    ".toList.all Text.isBlank = true := by decide
  rw [hk, Text.words_blanks_append _ _ (List.all_eq_true.mp hindent), Text.words_append_blanks]
  intro c hc
  rw [List.eq_of_mem_replicate hc]
  decide

theorem not_mem_front {a : Architecture} {w : Word} {c : Char} (hc : ¬ Text.Plain c)
    (hb : c ≠ ' ') : c ∉ front a w := by
  obtain ⟨k, hk⟩ := front_eq a w
  rw [hk]
  simp [not_mem_text (Item.writable_guess a w) hc hb, hb]

theorem not_mem_address {n : Nat} {c : Char} (hc : ¬ Text.Plain c) : c ∉ (address n).toList := by
  have hzero : c ≠ '0' := fun h => hc (h ▸ by decide)
  have hn : c ∉ (Numeral.ofNat n).toList := fun h => hc (Numeral.plain_ofNat h)
  simp [address, Text.padLeft, Text.fill, hzero, hn]

theorem not_mem_body {a : Architecture} {w : Word} {n : Nat} {c : Char} (hc : ¬ Text.Plain c)
    (hs : c ∉ " /:".toList) : c ∉ body a w n := by
  have hw : c ∉ w.text.toList := fun h => hc (Numeral.plain_ofInt h)
  have hs' : c ≠ ' ' ∧ c ≠ '/' ∧ c ≠ ':' := by simpa using hs
  simp [body, not_mem_front hc, not_mem_address hc, hw, hs']

theorem wordsOf_body (a : Architecture) (w : Word) (n : Nat) :
    wordsOf (body a w n) = (Text.words (Item.guess a w).text.toList).map String.ofList := by
  unfold wordsOf body
  rw [Text.uncommented_append _ _ (not_mem_front (by decide) (by decide)), words_front]

def heading (a : Architecture) : List (List Char) :=
  ["// LMC disassembly (".toList ++ a.name.toList ++ " machine)".toList,
    "// best effort: code and data may be confused".toList, []]

theorem toList_header (a : Architecture) : (header a).toList = Text.terminated (heading a) := by
  unfold header heading Text.terminated
  simp only [String.toList_append, String.reduceToList, List.flatMap_cons, List.flatMap_nil,
    List.cons_append, List.nil_append, List.append_assoc]

theorem wordsOf_heading {a : Architecture} {l : List Char} (h : l ∈ heading a) :
    wordsOf l = [] := by
  revert l
  cases a <;> decide

def rows (a : Architecture) (memory : List Word) : List (List Char) :=
  heading a ++ (used memory).zipIdx.map fun (w, n) => body a w n

theorem toList_render (a : Architecture) (memory : List Word) :
    (render a memory).toList = Text.terminated (rows a memory) := by
  unfold render rows
  rw [String.toList_append, toList_header, Text.terminated_append, String.toList_join]
  simp [Text.terminated, List.flatMap_map, toList_line]

theorem not_mem_rows {a : Architecture} {memory : List Word} {l : List Char} {c : Char}
    (hc : c = '\n' ∨ c = '\r') (hl : l ∈ rows a memory) : c ∉ l := by
  unfold rows at hl
  rw [List.mem_append] at hl
  rcases hl with hl | hl
  · revert l
    rcases hc with rfl | rfl <;> cases a <;> decide
  · obtain ⟨⟨w, n⟩, -, rfl⟩ := List.mem_map.mp hl
    rcases hc with rfl | rfl <;> exact not_mem_body (by decide) (by decide)

theorem lines_render (a : Architecture) (memory : List Word) :
    Text.lines (render a memory).toList = rows a memory := by
  rw [toList_render]
  exact Text.lines_terminated _ (fun l => not_mem_rows (Or.inl rfl))
    (fun l => not_mem_rows (Or.inr rfl))

/-! ## Assembling a listing -/

theorem parseLines_words (a : Architecture) (ws : List Word) (n line : Nat) {d : Draft}
    (he : d.settings.extensions) (hq : d.queued = []) :
    ∃ es : List Entry,
      Draft.parseLines line ((ws.zipIdx n).map fun (w, n) => body a w n) d =
        .ok () { d with entries := d.entries ++ es } ∧
      es.mapM (Draft.generateEntry a d.settings) = .ok (ws.map (Item.guess a)) := by
  have hguesses : ws.map (Item.guess a) = (ws.zipIdx n).map fun (w, _) => Item.guess a w := by
    conv_lhs => rw [← List.zipIdx_map_fst n ws, List.map_map]
    rfl
  apply parseLines_spells line _ hq
  rw [hguesses, List.forall₂_map_left_iff, List.forall₂_map_right_iff, List.forall₂_same]
  rintro ⟨w, k⟩ -
  show Spells a d.settings (wordsOf (body a w k)) (Item.guess a w)
  rw [wordsOf_body]
  exact spells_words (Item.writable_guess a w) he

theorem parse_render (a : Architecture) (memory : List Word) {d : Draft}
    (hs : d.source = render a memory) (he : d.settings.extensions) (hq : d.queued = []) :
    ∃ es : List Entry, Draft.parse d = .ok () { d with entries := d.entries ++ es } ∧
      es.mapM (Draft.generateEntry a d.settings) =
        .ok (items a (used memory) ++
          if d.settings.appendTrailingHalt then [.code (.halt 0)] else []) := by
  obtain ⟨es, hws, hitems⟩ :=
    parseLines_words a (used memory) 0 (1 + (heading a).length) he hq
  have hlines : Draft.parseLines 1 (rows a memory) d = _ :=
    (Draft.parseLines_of_no_words 1 d fun l hl => wordsOf_heading hl).trans hws
  have hparse := Draft.parse_of_parseLines (hs ▸ lines_render a memory) hlines
  have hfinish := @Draft.finish_of_nil ((rows a memory).length + 1)
    { d with entries := d.entries ++ es } hq
  refine ⟨es ++ Draft.trailing d.settings ((rows a memory).length + 1), ?_, ?_⟩
  · rw [hparse.trans hfinish]
    have happend : ∀ ts : List Entry, d.entries ++ es ++ ts = d.entries ++ (es ++ ts) :=
      fun ts => Array.ext' (by simp)
    rw [← happend]
  · rw [List.mapM_append, hitems, Draft.generate_trailing]
    rfl

theorem encode_items (a : Architecture) (ws : List Word) :
    (items a ws).map (Item.encode a) = ws := by
  unfold items
  rw [List.map_map]
  conv => rhs; rw [← List.map_id ws]
  exact List.map_congr_left fun w _ => Item.encode_guess a w

theorem encode_halt (a : Architecture) : (Item.code (.halt 0)).encode a = 0 := by
  cases a <;> rfl

/-- A listing assembles to the image it lists: the zero words at the end are lost, and the size of
what is left is the only thing that can be wrong with it. -/
theorem assemble_render (a : Architecture) {settings : Settings} (he : settings.extensions = true)
    (memory : List Word) :
    let t := memory.rdropWhile (· == 0)
    let size := t.length + if settings.appendTrailingHalt then 1 else 0
    assemble a settings (render a memory) =
      if size ≤ a.memorySize then
        .ok
          { items := items a t ++ if settings.appendTrailingHalt then [.code (.halt 0)] else []
            labels := {}
            image := t ++ if settings.appendTrailingHalt then [0] else [] }
      else .error (.programTooLarge size a.memorySize) := by
  intro t size
  obtain ⟨es, hparse, hitems⟩ :=
    @parse_render a memory { source := render a memory, settings } rfl he rfl
  have hall := @Draft.assemble_of_generate a _ _ _ hparse (by simpa [Draft.generate] using hitems)
  -- The words that the listing shows are those in front of the last zeros.
  have hused : used memory = t := rfl
  have hlen : (items a t).length = t.length := by simp [items]
  unfold assemble
  rw [hall, hused]
  simp only [List.length_append, hlen, List.map_append, encode_items, size]
  cases settings.appendTrailingHalt <;> simp [encode_halt]

theorem assemble_render_numbers :
    assemble .decimal { appendTrailingHalt := true }
        (render .decimal [901, 0, -7, 950, 105, 0, 0]) =
      .ok ⟨[.code (.transfer .input), .code (.halt 0), .data (-7), .data 950, .code (.add 5),
        .code (.halt 0)], {}, [901, 0, -7, 950, 105, 0]⟩ :=
  assemble_render .decimal rfl [901, 0, -7, 950, 105, 0, 0]

end LittleMan.Listing
