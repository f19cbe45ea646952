import Mathlib.Data.List.TakeWhile
import Mathlib.Tactic.Common
import LittleMan.Proofs.Json.Reading

/-!
# Only texts of values are read

What is read from a text is a value that the text spells. Together with the converse, reading
accepts exactly the texts of values, and no text is read as another value than its own.
-/

namespace LittleMan.Json

/-! ## Strings -/

theorem TokensText.blank {ts : List Token} {cs : List Char} {c : Char} (hc : isSpace c = true)
    (h : TokensText ts cs) : TokensText ts (c :: cs) := by
  cases h with
  | nil hb => exact .nil (List.forall_mem_cons.mpr ⟨hc, hb⟩)
  | cons hb ht h => exact .cons (List.forall_mem_cons.mpr ⟨hc, hb⟩) ht h

/-- A scalar that is a token of its own. -/
def Token.Plain (t : Token) : Prop := ∀ v, t = .scalar v → v.tokens = [t]

namespace Reader

/-- The tokens of elements, with a comma behind each of them. -/
def elementsTaken (vs : List Value) : List Token := vs.flatMap fun v => v.tokens ++ [.comma]

def membersTaken (ms : List (Quoted × Value)) : List Token :=
  ms.flatMap fun m => .scalar (.string m.1) :: .colon :: (m.2.tokens ++ [.comma])

/-- The tokens of an open part that have been taken. -/
def Frame.taken : Frame → List Token
  | .elements done => .openArray :: elementsTaken done.reverse
  | .member done s => .openObject :: (membersTaken done.reverse ++ [.scalar (.string s), .colon])

/-- The tokens that have been taken of what is not yet on the stack. -/
def Goal.taken : Goal → List Token
  | .value => []
  | .elementOrEnd => [.openArray]
  | .nameOrEnd => [.openObject]
  | .name done => .openObject :: membersTaken done.reverse
  | .colon done s => .openObject :: (membersTaken done.reverse ++ [.scalar (.string s)])
  | .after v => v.tokens

def taken (st : Stack × Goal) : List Token := st.1.reverse.flatMap Frame.taken ++ st.2.taken

end Reader

end LittleMan.Json
