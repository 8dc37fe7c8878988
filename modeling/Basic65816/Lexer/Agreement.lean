import Basic65816.Lexer.Assembler
import Basic65816.Lexer.Python

/-!
# The two tokenisers agree

Both tokenisers implement the lexer, so the token buffer and the builder's token list are the same
words. The buffer holds 126 words and the closing zero; the assembler tokeniser stops with an error
where the builder's list is longer or the builder rejects the line.

## Main results

* `tokenise_eq_builder`: the agreement on printable lines
-/

namespace Basic65816

/-- **The tokenisers agree** on every printable line, stored in one bank and closed by a zero byte. -/
theorem tokenise_eq_builder {m : Machine} {a y : ℕ} {s : List ℕ} (hs : Printable s)
    (ht : m.far.BytesAt (a + 0x10000 * (y % 0x100)) (s ++ [0])) (hb : a + s.length < 0x10000)
    (hbase : m.dBaseAddress % 0x100 = 0) (htop : m.dBaseAddress + 0x200 ≤ 0x10000) :
    (∀ t, Builder.tokenise s = some t → t.length ≤ 126 →
      ∃ m', Settles (fun fuel => tokenise fuel m a y) (.ok m') ∧
        m'.bank.WordsAt (m.dBaseAddress + blockTokenBuffer) (t ++ [0x0000])) ∧
    (∀ t, Builder.tokenise s = some t → 126 < t.length → Fails fun fuel => tokenise fuel m a y) ∧
    (Builder.tokenise s = none → Fails fun fuel => tokenise fuel m a y) := by
  have hz : 0 ∉ s := fun h => by simpa using (hs 0 h).1
  have hasm := tokenise_lex ht hb hz hbase htop
  refine ⟨fun t h hl => ?_, fun t h hl => ?_, fun h => ?_⟩
  · have hpy := builder_tokenise_some hs.clean h
    simpa only [hpy, Tokenises, if_pos hl] using hasm
  · have hpy := builder_tokenise_some hs.clean h
    simpa only [hpy, Tokenises, if_neg (Nat.not_le.mpr hl)] using hasm
  · cases hlex : (lex (capitalise s)).map wordsOf with
    | none => simpa only [hlex, Tokenises] using hasm
    | some ws =>
      have hlong := builder_tokenise_none hs.clean h hlex
      simpa only [hlex, Tokenises, if_neg (Nat.not_le.mpr hlong)] using hasm

/-- The line `a=1` in a workspace at `$4000`. -/
theorem tokenise_eq_builder_assignment :
    let m : Machine := { (default : Machine) with
      dBaseAddress := 0x4000, far := Memory.ofBytes 0 (ord "a=1") }
    ∃ m', Settles (fun fuel => tokenise fuel m 0 0) (.ok m') ∧
      m'.bank.WordsAt 0x4100 [0xC001, 0x2206, 0x4001, 0x0000] :=
  (tokenise_eq_builder (s := ord "a=1") (by decide) ⟨rfl, rfl, rfl, rfl, trivial⟩ (by decide)
    rfl (by decide)).1 [0xC001, 0x2206, 0x4001] (by decide) (by decide)

end Basic65816
