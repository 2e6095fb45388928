import Monkey.Proofs.Layout
import Monkey.Proofs.Respelling

/-!
Tokens that are written by themselves. What ends a token in a text is what stands behind it, or its
own last character; a blank ends every token. So tokens written one after another with a blank
between each and the next are read back as they were, whatever they stood next to before, and a
string that ran to the end of its text is closed.
-/

namespace Monkey

def Token.written (t : Token) : String := t.kind.written t.literal

/-- The text in which these tokens stand one blank apart. -/
def Token.spaced (ts : List Token) : String := " ".intercalate (ts.map Token.written)

theorem Token.IsSpelled.lexed_written {t : Token} (h : t.IsSpelled) {rest : List Char}
    (hrest : AtBlank rest) :
    lexed (t.written.toList ++ rest) = t.move Span.erase :: lexed rest := by
  obtain ⟨text, behind, ht⟩ := h
  exact lexed_of_spells (ht.written hrest)

/-- Tokens that are spelled somewhere are read back from where they stand one blank apart. -/
theorem Token.lexed_spaced {ts : List Token} (h : ∀ t ∈ ts, t.IsSpelled) :
    lexed (spaced ts).toList = ts.map (Token.move Span.erase) := by
  induction ts with
  | nil => exact lexed_nil
  | cons t ts ih =>
    obtain ⟨ht, hts⟩ := List.forall_mem_cons.mp h
    cases ts with
    | nil =>
      have hread := ht.lexed_written atBlank_nil
      rw [List.append_nil, lexed_nil] at hread
      rw [spaced, List.map_singleton, String.intercalate_singleton]
      exact hread
    | cons u ts =>
      have htext : (spaced (t :: u :: ts)).toList =
          t.written.toList ++ ' ' :: (spaced (u :: ts)).toList := by
        simp [spaced, String.intercalate_cons_cons]
      have hblank : AtBlank (' ' :: (spaced (u :: ts)).toList) := atBlank_cons (by decide) _
      rw [htext, ht.lexed_written hblank, lexed_blank, ih hts]
      rfl

/-- The tokens of a text, written one blank apart, are a text with the same tokens. -/
theorem sameTokens_spaced (source : String) :
    SameTokens (Token.spaced (Token.tokenize source).dropLast) source := by
  have hspelled := (Lexer.scans_tokens (Lexer.ofString source)).isSpelled
  rw [Token.tokenize, List.dropLast_concat]
  exact .of_tokens_erase (Token.lexed_spaced hspelled)

example : Token.spaced (Token.tokenize "!==1x \"b").dropLast = "!= = 1 x \"b\"" := by
  decide +kernel

end Monkey
