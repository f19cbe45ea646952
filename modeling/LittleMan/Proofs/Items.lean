import Mathlib.Tactic.Common
import LittleMan.Proofs.Assembly.Content
import LittleMan.Proofs.Assembly.Meaning
import LittleMan.Proofs.Listing

/-!
# Items written and loaded

Items that are written line by line are assembled to themselves. Items that were guessed from words
put these words back in memory, right or wrong.
-/

namespace LittleMan

open Assembly

/-! ## Items as source text -/

variable {a : Architecture} {settings : Settings} {items : List Item}

theorem spells_text {item : Item} (h : item.Writable a) (he : settings.extensions) :
    Spells a settings (wordsOf item.text.toList) item := by
  rw [wordsOf, Text.uncommented_of_not_mem (not_mem_text h (by decide) (by decide))]
  exact spells_words h he

theorem assemble_of_lines {source : String}
    (hlines : Text.lines source.toList = items.map (·.text.toList))
    (h : ∀ item ∈ items, item.Writable a) (he : settings.extensions = true)
    (ht : settings.appendTrailingHalt = false) (hsize : items.length ≤ a.memorySize) :
    assemble a settings source =
      .ok { items, labels := {}, image := items.map (Item.encode a) } := by
  have hspells : List.Forall₂ (fun text item => Spells a settings (wordsOf text) item)
      (items.map (·.text.toList)) items := by
    rw [List.forall₂_map_left_iff, List.forall₂_same]
    exact fun item hitem => spells_text (h item hitem) he
  obtain ⟨es, hparse, hitems⟩ := parseLines_spells (d := { source, settings }) 1 hspells rfl
  have hfinish := (Draft.parse_of_parseLines (d := { source, settings }) hlines hparse).trans
    (Draft.finish_of_nil rfl)
  have hall := Draft.assemble_of_generate hfinish
    (by simpa [Draft.generate, Draft.trailing, ht] using hitems)
  unfold assemble
  rw [hall, if_pos hsize]

/-- Items that are written on lines of their own are assembled to themselves, whether or not the
last line is ended. -/
theorem assemble_texts (a : Architecture) (settings : Settings) (items : List Item)
    (he : settings.extensions = true) (ht : settings.appendTrailingHalt = false)
    (hsize : items.length ≤ a.memorySize) (h : ∀ item ∈ items, item.Writable a) :
    let program : Program := { items, labels := {}, image := items.map (Item.encode a) }
    assemble a settings (String.join (items.map (·.text ++ "\n"))) = .ok program ∧
      assemble a settings ("\n".intercalate (items.map Item.text)) = .ok program := by
  intro program
  have hnone : ∀ l ∈ items.map (·.text.toList), '\n' ∉ l ∧ '\r' ∉ l := by
    intro l hl
    obtain ⟨item, hitem, rfl⟩ := List.mem_map.mp hl
    exact ⟨not_mem_text (h item hitem) (by decide) (by decide),
      not_mem_text (h item hitem) (by decide) (by decide)⟩
  have hended : (String.join (items.map (·.text ++ "\n"))).toList =
      Text.terminated (items.map (·.text.toList)) := by
    simp [String.toList_join, Text.terminated, List.flatMap_map]
  have hparted : ("\n".intercalate (items.map Item.text)).toList =
      ['\n'].intercalate (items.map (·.text.toList)) := by
    simp [String.toList_intercalate, Function.comp_def]
  have hlines : Text.lines (String.join (items.map (·.text ++ "\n"))).toList =
      items.map (·.text.toList) := by
    rw [hended]
    exact Text.lines_terminated _ (fun l hl => (hnone l hl).1) fun l hl => (hnone l hl).2
  have hok := assemble_of_lines hlines h he ht hsize
  refine ⟨hok, ?_⟩
  have hcontent := assemble_eq_ok.mp hok
  rw [contentLines_terminated hended fun l hl => (hnone l hl).1] at hcontent
  rw [assemble_eq_ok, contentLines_intercalate hparted fun l hl => (hnone l hl).1]
  exact hcontent

theorem assemble_texts_lookalikes :
    assemble .decimal {} "HLT 7\nDAT 901\nOTC\nHLT\nDAT -9223372036854775808" =
      .ok
        { items := [.code (.halt 7), .data 901, .code (.transfer .outputChar), .code (.halt 0),
            .data (-9223372036854775808)]
          labels := {}
          image := [7, 901, 922, 0, -9223372036854775808] } :=
  (assemble_texts .decimal {}
    [.code (.halt 7), .data 901, .code (.transfer .outputChar), .code (.halt 0),
      .data (-9223372036854775808)] rfl rfl (by decide) (by decide)).2

/-! ## Guesses in memory -/

theorem fits_of_mem_items {ws : List Word} {i : Instruction}
    (h : .code i ∈ Listing.items a ws) : i.Fits a := by
  obtain ⟨w, -, hguess⟩ := List.mem_map.mp h
  unfold Item.guess at hguess
  dsimp only at hguess
  split_ifs at hguess with hc
  obtain rfl : Instruction.decode a w = i := by simpa using hguess
  exact Instruction.fits_of_isKnown (Bool.and_eq_true_iff.mp hc).1
    (Instruction.operand_decode_lt a w)

theorem load_of_length_gt {C : Type} {image : List Word} (settings : Settings) (channel : C)
    (h : a.memorySize < image.length) :
    Machine.load a settings channel image = .error ⟨image.length, a.memorySize⟩ := by
  have hsize : (Memory.zeros a.memorySize).size = a.memorySize := by
    simp [Memory.zeros, Memory.size]
  unfold Machine.load Memory.ofImage Memory.load
  rw [hsize, if_neg (by omega)]
  rfl

/-- Guessing at the words of a memory image never changes what is loaded. The words of the guesses
are computed without overflow, and guessing at them again makes no difference. -/
theorem load_guesses (a : Architecture) (ws : List Word) :
    (Listing.items a ws).map (Item.encode a) = ws ∧
    (∀ i, .code i ∈ Listing.items a ws → i.Fits a) ∧
    (∀ (C : Type) (settings : Settings) (channel : C),
      Machine.loadItems a settings channel (Listing.items a ws) =
        Machine.load a settings channel ws ∧
      ((∃ m, Machine.load a settings channel ws = .ok m) ∨
        Machine.load a settings channel ws = .error ⟨ws.length, a.memorySize⟩)) ∧
    Listing.items a ((Listing.items a ws).map (Item.encode a)) = Listing.items a ws := by
  have hencode := Listing.encode_items a ws
  refine ⟨hencode, fun i => fits_of_mem_items, ?_, by rw [hencode]⟩
  intro C settings channel
  constructor
  · unfold Machine.loadItems
    rw [hencode]
  · rcases Nat.lt_or_ge a.memorySize ws.length with hlarge | hfits
    · exact .inr (load_of_length_gt settings channel hlarge)
    · exact .inl (load_of_length_le settings channel hfits)

end LittleMan
