import Mathlib.Tactic.Common
import LittleMan.Proofs.Assembly.Guise

/-!
# The trailing halt

Settings can ask for a halt behind the last line. This comes to the same as a source text that ends
in a line with the halt on it: the same program, or the same error. The line is added to the text as
it stands. Where the text ends in a newline there is an empty line in between, and where its last
line ends in a carriage return the new line takes that away; neither changes the words.
-/

namespace LittleMan.Assembly

/-! ## Words of a longer text -/

theorem words_lines_append (text last : List Char) (hn : '\n' ∉ last) (hne : last ≠ []) :
    ∃ blanks : List (List Char), (∀ b ∈ blanks, wordsOf b = []) ∧
      (Text.lines (text ++ '\n' :: last)).map wordsOf =
        (Text.lines text ++ (blanks ++ [last])).map wordsOf := by
  obtain ⟨init, piece, hpieces⟩ : ∃ init piece, text.splitOn '\n' = init ++ [piece] :=
    ⟨_, _, (List.dropLast_append_getLast (List.splitOn_ne_nil _ _)).symm⟩
  rw [Text.lines_append_line text last hn hne]
  unfold Text.lines
  rw [hpieces]
  by_cases hpiece : piece = []
  · refine ⟨[[]], by simpa using wordsOf_nil, ?_⟩
    simp [hpiece, Text.dropReturn]
  · refine ⟨[], by simp, ?_⟩
    simp [Option.filter_some, hpiece, wordsOf_dropReturn]

namespace Draft

/-! ## Entries that end in a halt -/

def haltOn (line : Nat) : Entry := { line, mnemonic := .code .halt, operand := some (.number 0) }

theorem parseLine_halt (line : Nat) : parseLine line "HLT 0".toList = addEntry (haltOn line) := by
  have hwords : wordsOf "HLT 0".toList = ["HLT", "0"] := by decide
  have hstatement : Statement.ofWords ["HLT", "0"] = .ok ⟨none, "HLT", "0"⟩ := by decide
  unfold parseLine
  rw [hwords, hstatement]
  rfl

/-- What the stages behind parsing make of entries with a halt behind them. The line of the halt
does not come into it, nor do its labels. -/
theorem assemble_of_halt {a : Architecture} {d d' : Draft} {es : List Entry} {line : Nat}
    {labels : List String} (hp : parse d = .ok () d')
    (hes : d'.entries.toList = es ++ [{ haltOn line with labels }]) :
    d.assemble a =
      match es.mapM (resolveEntry d'.labels) with
      | .error e => .error e
      | .ok _ =>
        match es.mapM (fun e => resolveEntry d'.labels e >>= generateEntry a d'.settings) with
        | .error e => .error e
        | .ok items =>
          let items := items ++ [.code (.halt 0)]
          if items.length ≤ a.memorySize then
            .ok { items, labels := d'.labels, image := items.map (Item.encode a) }
          else .error (.programTooLarge items.length a.memorySize) := by
  have hlast : resolveEntry d'.labels { haltOn line with labels } =
      .ok { haltOn line with labels } := rfl
  have hitem : resolveEntry d'.labels { haltOn line with labels } >>=
      generateEntry a d'.settings = .ok (.code (.halt 0)) := by cases a <;> rfl
  have hresolve := mapM_concat_of_ok es hlast
  have hitems := mapM_concat_of_ok
    (f := fun e => resolveEntry d'.labels e >>= generateEntry a d'.settings) es hitem
  rw [← hes] at hresolve hitems
  cases hes' : es.mapM (resolveEntry d'.labels) with
  | error e =>
    rw [hes'] at hresolve
    exact assemble_of_resolve_error hp hresolve
  | ok out =>
    rw [hes'] at hresolve
    rw [assemble_of_resolve hp hresolve, hitems]
    cases es.mapM fun e => resolveEntry d'.labels e >>= generateEntry a d'.settings <;> rfl

/-! ## Both ways to a halt -/

def parseHalting (texts : List (List Char)) (line : Nat) : EStateM Error Draft Unit := do
  parseLines 1 texts
  addEntry (haltOn line)

theorem blind_parseHalting (texts : List (List Char)) (line : Nat) :
    Blind (parseHalting texts line) := by
  apply blind_of_carries
  intro source settings
  unfold parseHalting
  rw [parseLines_eq]
  exact (carries_parseNumbered_self source settings _).bind (Guise.carries_addEntry _ (haltOn line))

theorem parse_eq_of_asked {d : Draft} (h : d.settings.appendTrailingHalt = true) :
    parse d = parseHalting (Text.lines d.source.toList)
      ((Text.lines d.source.toList).length + 1) d := by
  unfold parse parseHalting
  cases hlines : parseLines 1 (Text.lines d.source.toList) d with
  | error e d' => rw [bind_of_error hlines, bind_of_error hlines]
  | ok u d' =>
    rw [bind_of_ok hlines, bind_of_ok hlines, finish, parseLines_settings hlines,
      if_pos h]
    rfl

theorem parseLines_append_halt (text : List Char) :
    ∃ line, parseLines 1 (Text.lines (text ++ '\n' :: "HLT 0".toList)) =
      parseHalting (Text.lines text) line := by
  obtain ⟨blanks, hblanks, hwords⟩ :=
    words_lines_append text "HLT 0".toList (by decide) (by decide)
  refine ⟨1 + (Text.lines text).length + blanks.length, ?_⟩
  rw [parseLines_congr 1 hwords, parseLines_append]
  unfold parseHalting
  congr 1
  funext _ d
  rw [parseLines_of_no_words _ d hblanks, ← parseLine_halt]
  exact congrFun bind_pure_unit d

theorem parse_eq_of_written {d : Draft} (text : List Char)
    (h : d.settings.appendTrailingHalt = false)
    (hsource : d.source.toList = text ++ '\n' :: "HLT 0".toList) :
    ∃ line, parse d = parseHalting (Text.lines text) line d := by
  obtain ⟨line, hlines⟩ := parseLines_append_halt text
  refine ⟨line, ?_⟩
  unfold parse
  rw [hsource]
  dsimp only
  rw [hlines]
  cases hd' : parseHalting (Text.lines text) line d with
  | error e d' => rw [bind_of_error hd']
  | ok u d' =>
    -- The halt has taken all labels, so nothing is left to do.
    obtain ⟨u, d₁, -, hentry⟩ := bind_eq_ok hd'
    have hqueued : d'.queued = [] := by rw [addEntry_ok hentry]
    have hnone : d'.settings.appendTrailingHalt = false := by
      rw [(blind_parseHalting _ _).settings hd', h]
    rw [bind_of_ok hd', finish_of_nil hqueued]
    simp [trailing, hnone]

/-- Of all that the source text, the settings and the line of the halt could change, parsing changes
nothing but the line of the last entry. -/
theorem parseHalting_outcome (texts : List (List Char)) (d : Draft) :
    (∃ e, ∀ source settings line,
      ∃ d', parseHalting texts line (d.under source settings) = .error e d') ∨
    ∃ labels, ∃ d' : Draft, ∀ source settings line,
      parseHalting texts line (d.under source settings) =
        .ok () { d'.under source settings with
          entries := d'.entries.push { haltOn line with labels } } := by
  cases hlines : parseLines 1 texts d with
  | error e d' =>
    refine .inl ⟨e, fun source settings line => ⟨d'.under source settings, ?_⟩⟩
    rw [blind_parseHalting, parseHalting, bind_of_error hlines]
  | ok u d₁ =>
    cases hbind : bindQueued d₁.entries.size d₁ with
    | error e d' =>
      refine .inl ⟨e, fun source settings line => ⟨d'.under source settings, ?_⟩⟩
      rw [blind_parseHalting, parseHalting, bind_of_ok hlines, addEntry, hbind]
    | ok labels d' =>
      refine .inr ⟨labels, d', fun source settings line => ?_⟩
      rw [blind_parseHalting, parseHalting, bind_of_ok hlines, addEntry, hbind]
      rfl

end Draft

/-- A halt that settings ask for is the same as one that is written on a line behind the last. -/
theorem trailing_halt_as_last_line (a : Architecture) (settings : Settings) (source : String) :
    assemble a { settings with appendTrailingHalt := true } source =
      assemble a { settings with appendTrailingHalt := false } (source ++ "\nHLT 0") := by
  have hasked := Draft.parse_eq_of_asked
    (d := { source, settings := { settings with appendTrailingHalt := true } }) rfl
  obtain ⟨line, hwritten⟩ := Draft.parse_eq_of_written source.toList
    (d := { source := source ++ "\nHLT 0",
            settings := { settings with appendTrailingHalt := false } })
    rfl (by rw [String.toList_append]; rfl)
  rcases Draft.parseHalting_outcome (Text.lines source.toList) { source, settings } with
    ⟨e, herror⟩ | ⟨labels, d', hok⟩
  · obtain ⟨d₁, hd₁⟩ := herror source { settings with appendTrailingHalt := true }
      ((Text.lines source.toList).length + 1)
    obtain ⟨d₂, hd₂⟩ := herror (source ++ "\nHLT 0")
      { settings with appendTrailingHalt := false } line
    unfold assemble
    rw [Draft.assemble_of_parse_error (hasked.trans hd₁),
      Draft.assemble_of_parse_error (hwritten.trans hd₂)]
  · unfold assemble
    rw [Draft.assemble_of_halt (hasked.trans (hok _ _ _)) Array.toList_push,
      Draft.assemble_of_halt (hwritten.trans (hok _ _ _)) Array.toList_push]
    -- Making items does not look at the setting in which the two differ.
    rfl

end LittleMan.Assembly
