import Mathlib.Tactic.Common
import LittleMan.Command.Outcome
import LittleMan.Proofs.Command.FileTree
import LittleMan.Proofs.ImageFile
import LittleMan.Proofs.Text.Line

/-!
# Saved images

What the assemble command writes to a file is what the run command finds there. A plan that only
reads files comes to one answer in all worlds with the same files, or it ends the program with an
error.
-/

namespace LittleMan.Command

namespace Plan

variable {α β : Type} {p : Plan α} {files : FileTree}

/-! ## Plans that only read -/

/-- In a world with these files, the plan comes to the answer `x` and changes nothing. -/
def Answers (p : Plan α) (files : FileTree) (x : α) : Prop :=
  ∀ (style : Log.Style) (w : World), w.files = files → ∀ next : α → Plan Unit,
    (p.bind next).perform style w = (next x).perform style w

/-- In a world with these files, the plan ends the program with an error. -/
def Fails (p : Plan α) (files : FileTree) : Prop :=
  ∀ (style : Log.Style) (w : World), w.files = files → ∀ next : α → Plan Unit,
    ((p.bind next).perform style w).exitCode = 1

def Settled (p : Plan α) (files : FileTree) : Prop := (∃ x, p.Answers files x) ∨ p.Fails files

theorem Answers.perform {style : Log.Style} {w : World} {x : α} {next : α → Plan Unit}
    (h : p.Answers files x) (hw : w.files = files) :
    (p >>= next).perform style w = (next x).perform style w := h style w hw next

theorem Fails.perform {style : Log.Style} {w : World} {next : α → Plan Unit}
    (h : p.Fails files) (hw : w.files = files) :
    ((p >>= next).perform style w).exitCode = 1 := h style w hw next

theorem perform_note {style : Log.Style} {w : World} {next : Unit → Plan Unit} (level : Log.Level)
    (message : String) :
    (note level message >>= next).perform style w =
      (next ()).perform style { w with stderr := w.stderr ++ Log.entry style level message } := rfl

theorem bind_assoc {γ : Type} (p : Plan α) (f : α → Plan β) (g : β → Plan γ) :
    (p.bind f).bind g = p.bind fun x => (f x).bind g := by
  induction p with
  | done x => rfl
  | exit code => rfl
  | print text next ih => simp only [bind, ih]
  | log level message next ih => simp only [bind, ih]
  | readFile path next ih => simp only [bind, ih]
  | writeFile path content next ih => simp only [bind, ih]
  | execute machine limit next ih => simp only [bind, ih]

theorem answers_done (x : α) : (done x).Answers files x := fun _ _ _ _ => rfl

theorem Answers.bind {f : α → Plan β} {x : α} {y : β} (hp : p.Answers files x)
    (hf : (f x).Answers files y) : (p.bind f).Answers files y := by
  intro style w hw next
  rw [bind_assoc, hp style w hw]
  exact hf style w hw next

theorem Settled.bind {f : α → Plan β} (hp : p.Settled files) (hf : ∀ x, (f x).Settled files) :
    (p.bind f).Settled files := by
  rcases hp with ⟨x, hx⟩ | hfails
  · rcases hf x with ⟨y, hy⟩ | hfails
    · exact .inl ⟨y, hx.bind hy⟩
    · right
      intro style w hw next
      rw [bind_assoc, hx style w hw]
      exact hfails style w hw next
  · right
    intro style w hw next
    rw [bind_assoc]
    exact hfails style w hw _

theorem settled_orFail {ε : Type} (context : String) (message : ε → String) (r : Except ε α) :
    (orFail context message r).Settled files := by
  cases r with
  | ok x => exact .inl ⟨x, answers_done x⟩
  | error e => exact .inr fun style w hw next => rfl

end Plan

open Plan (answers_done settled_orFail)

variable {files : FileTree}

theorem answers_readText (path : String) :
    (readText path).Answers files (decodeFile ((files.read path).mapError (·.message))) := by
  intro style w hw next
  rw [← hw]
  rfl

theorem settled_readText (path : String) : (readText path).Settled files :=
  .inl ⟨_, answers_readText path⟩

theorem settled_readSettings (o : MachineOptions) : (readSettings o).Settled files := by
  unfold readSettings
  split
  · exact .inl ⟨_, answers_done _⟩
  · apply (settled_readText _).bind
    intro text
    apply (settled_orFail _ _ _).bind
    intro settings
    exact .inl ⟨_, answers_done _⟩

theorem settled_readSource (a : Architecture) (settings : Settings) (path : String) :
    (readSource a settings path).Settled files := by
  unfold readSource
  apply (settled_readText _).bind
  intro text
  apply (settled_orFail _ _ _).bind
  intro source
  exact settled_orFail _ _ _

/-! ## The file of an image -/

theorem decodeFile_toUTF8 (text : String) : decodeFile (.ok text.toUTF8) = .ok text := by
  simp only [decodeFile, Except.bind, Text.fromUTF8?_toUTF8]

theorem answers_readImage {path : String} {a : Architecture} {image : List Word}
    (h : files.read path = .ok (ImageFile.render a image).toUTF8) :
    (readImage path).Answers files image := by
  apply (answers_readText path).bind
  rw [h]
  simp only [Except.mapError, decodeFile_toUTF8, Except.bind, ImageFile.parse_render]
  exact answers_done image

theorem assembleFile_ok {style : Log.Style} {w w' : World} {path : String} {output : Option String}
    {o : MachineOptions} (h : (assembleFile path output o).perform style w = ⟨0, w'⟩) :
    ∃ settings program, (readSettings o).Answers w.files settings ∧
      (readSource o.architecture settings path).Answers w.files program ∧
      w.files.write (output.getD (Path.withExtension path "img"))
        (ImageFile.render o.architecture program.image).toUTF8 = .ok w'.files := by
  dsimp only [assembleFile] at h
  have hfirst : (readSettings o).Settled w.files := settled_readSettings o
  obtain ⟨settings, hsettings⟩ | hfails := hfirst
  · rw [hsettings.perform rfl, Plan.perform_note] at h
    have hsecond : (readSource o.architecture settings path).Settled w.files :=
      settled_readSource o.architecture settings path
    obtain ⟨program, hprogram⟩ | hfails := hsecond
    · refine ⟨settings, program, hsettings, hprogram, ?_⟩
      rw [hprogram.perform (by rfl), Plan.perform_note] at h
      simp only [bind, Plan.note, Plan.bind, Plan.perform] at h
      split at h
      · rename_i files hwrite
        obtain rfl : w' = _ := (congrArg Outcome.world h).symm
        exact hwrite
      · cases congrArg Outcome.exitCode h
    · have hcode := congrArg Outcome.exitCode h
      rw [hfails.perform (by rfl)] at hcode
      cases hcode
  · have hcode := congrArg Outcome.exitCode h
    rw [hfails.perform rfl] at hcode
    cases hcode

/-- An image file holds the image it was made for: the run command loads the machine that the image
itself makes. -/
theorem saved_image_reloads :
    (∀ (a : Architecture) (image : List Word),
      ImageFile.parse (ImageFile.render a image) = .ok image) ∧
    ∀ (style : Log.Style) (w w' : World) (path target : String) (output : Option String)
      (o : MachineOptions), target = output.getD (Path.withExtension path "img") →
      w.files.isInside target → (assembleFile path output o).perform style w = ⟨0, w'⟩ →
      ∃ settings program, (readSettings o).Answers w.files settings ∧
        (readSource o.architecture settings path).Answers w.files program ∧
        (readImage target).Answers w'.files program.image ∧
        ∀ (C : Type) (channel : C) (settings : Settings) (m : Machine C),
          Machine.load o.architecture settings channel program.image = .ok m →
          ((readImage target).bind fun image =>
            Plan.orFail "Failed to load program" Memory.ImageTooLarge.message
              (Machine.load o.architecture settings channel image)).Answers w'.files m := by
  refine ⟨ImageFile.parse_render, ?_⟩
  rintro style w w' path target output o rfl hin h
  obtain ⟨settings, program, hsettings, hprogram, hwrite⟩ := assembleFile_ok h
  have hread := answers_readImage (FileTree.read_write hin hwrite)
  refine ⟨settings, program, hsettings, hprogram, hread, ?_⟩
  intro C channel settings m hload
  apply hread.bind
  rw [hload]
  exact answers_done m

theorem saved_image_reloads_echo :
    ∃ w w' : World,
      w = { files := ⟨[(["echo.lmc"], "INP\nOUT\nDAT -7\n".toUTF8)]⟩, stdin := [] } ∧
      w.files.isInside "echo.img" ∧
      (assembleFile "echo.lmc" none ⟨none, false, false, false, false, .decimal⟩).perform
        { least := .info, coloured := false } w = ⟨0, w'⟩ ∧
      ∃ settings program, (readSource .decimal settings "echo.lmc").Answers w.files program ∧
        (readImage "echo.img").Answers w'.files program.image := by
  have hperform : ∃ w : World,
      w = { files := ⟨[(["echo.lmc"], "INP\nOUT\nDAT -7\n".toUTF8)]⟩, stdin := [] } ∧
      w.files.isInside "echo.img" ∧
      ((assembleFile "echo.lmc" none ⟨none, false, false, false, false, .decimal⟩).perform
        { least := .info, coloured := false } w).exitCode = 0 :=
    ⟨_, rfl, by decide +kernel, by decide +kernel⟩
  have htarget :
      "echo.img" = (none : Option String).getD (Path.withExtension "echo.lmc" "img") := by
    decide +kernel
  obtain ⟨w, hw, hin, hcode⟩ := hperform
  generalize houtcome : (assembleFile "echo.lmc" none ⟨none, false, false, false, false,
    .decimal⟩).perform { least := .info, coloured := false } w = outcome at hcode
  obtain ⟨code, w'⟩ := outcome
  obtain rfl : code = 0 := hcode
  obtain ⟨settings, program, -, hsource, himage, -⟩ :=
    saved_image_reloads.2 _ w w' "echo.lmc" "echo.img" none _ htarget hin houtcome
  exact ⟨w, w', hw, hin, houtcome, settings, program, hsource, himage⟩

end LittleMan.Command
