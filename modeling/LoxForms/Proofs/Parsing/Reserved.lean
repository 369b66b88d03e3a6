import LoxForms.Dump
import LoxForms.Proofs.Building.Names
import LoxForms.Proofs.Lexeme.Words
import LoxForms.Proofs.Parsing.Operands
import LoxForms.Proofs.Parsing.Resuming
import LoxForms.Proofs.Parsing.Tiling
/-!
# Reserved words

Which words are reserved depends on the state in which they stand, and so does whether
they are looked for as whole words. `Parsed.reserved` says how far this goes. In a text
that is read, a reserved word is a whole word; only an `or` or an `and` can be the front
of a longer one, where no identifier can stand (`bounded_of_lt`). And a word that begins an
operand is never a variable (`Parsed.lookups_free`), though it can be any other name.

After a whole word a text ends or is blank, or it goes on with a sign or a quote
(`Lexeme.apart`): whatever else comes there, the text is not read.
-/

namespace LoxForms

open Automaton

/-! ## Where words are reserved -/

namespace TokenKind

/-- The reserved words that stand between two operands. -/
def connectives : List TokenKind := [.orWord, .andWord]

end TokenKind

namespace Automaton

/-- What is checked of the table: identifiers are looked for wherever reserved words are,
unless these are connectives; and where connectives are, they are not. -/
theorem bounded_of_lt : ∀ q < states.size, ∀ k ∈ table.wanted q, k ∈ TokenKind.words →
    (.identifier ∈ table.wanted q ↔ k ∉ TokenKind.connectives) := by
  rw [← quickTable_eq]
  decide +kernel

theorem lt_size_of_mem_wanted {q : Nat} {k : TokenKind} (hk : k ∈ TokenKind.words)
    (h : k ∈ wanted q) : q < states.size := by
  obtain ⟨action, ha⟩ := Option.isSome_iff_exists.mp (mem_wanted.mp h)
  refine lt_size_of_action ha ?_
  rintro rfl
  rw [action?, if_pos rfl] at ha
  split at ha
  · rename_i hend
    exact absurd (hend ▸ hk) (by decide)
  · cases ha

/-- **A reserved word is looked for as a whole word**, unless it is a connective. -/
theorem identifier_mem_wanted_iff {q : Nat} {k : TokenKind} (hk : k ∈ TokenKind.words)
    (h : k ∈ wanted q) : .identifier ∈ wanted q ↔ k ∉ TokenKind.connectives := by
  rw [← mem_table_wanted]
  exact bounded_of_lt q (lt_size_of_mem_wanted hk h) k (mem_table_wanted.mpr h) hk

end Automaton

/-! ## Words in a text -/

namespace Progress

variable {text cs : List Char} {p q : Progress} {here : Place} {skip : Nat}
variable {before after ls : List Lexeme} {l : Lexeme}

/-- A scan goes on to the end of its text. -/
theorem Scans.front (h : Scans p here 0 cs ls q) :
    cs = [] ∨ Lexeme.read p.wanted cs ≠ .nothing := by
  cases h with
  | done => exact .inl rfl
  | gap hread _ => exact .inr (by simp [hread])
  | token hread _ _ _ _ => exact .inr (by simp [hread])

/-- **A lexeme of a text, as it has been come to**: what has been found before it, what is
looked for where it stands, and from where on the rest is scanned. -/
theorem Scans.at_lexeme (h : Scans p here skip cs (before ++ l :: after) q)
    (hcs : text.drop here.offset = cs) : ∃ p' q' there rest, p.Finds before p' ∧
      text.drop l.first.offset = l.text.toList ++ rest ∧
      Lexeme.read p'.wanted (l.text.toList ++ rest) = .token l.kind l.text.toList ∧
      p'.feed l = .ok q' ∧ Scans q' there 0 rest after q := by
  generalize hls : before ++ l :: after = ls at h
  induction h generalizing before with
  | done => exact absurd hls (by simp)
  | skip _ ih => exact ih (Place.drop_after hcs) hls
  | gap _ _ ih => exact ih (Place.drop_after hcs) hls
  | @token p p₁ q here c rest l₁ ls hread hfirst _ hfeed hrest ih =>
    cases before with
    | cons b before =>
      obtain ⟨rfl, hrest'⟩ := List.cons.inj hls
      obtain ⟨p', q', there, rest', hfinds, hplace⟩ := ih (Place.drop_after hcs) hrest'
      exact ⟨p', q', there, rest', .next hread hfeed hfinds, hplace⟩
    | nil =>
      obtain ⟨rfl, rfl⟩ := List.cons.inj hls
      obtain ⟨t, more, rfl, ht, hscans⟩ := hrest.after_token (Lexeme.read_eq_token.mp hread).2
      refine ⟨p, p₁, _, more, .done, ?_, ?_, hfeed, hscans⟩
      · rw [hfirst, hcs, ht, List.cons_append]
      · rw [ht] at hread ⊢
        exact hread

end Progress

open Progress

/-- A reserved word of a text is a whole word, or it is a connective and stands where no
identifier can. -/
theorem Parsed.bounded {text : String} {parsed : Parsed} {before after : List Lexeme} {l : Lexeme}
    (h : Parsed.ofText text = .ok parsed) (hl : parsed.lexemes = before ++ l :: after)
    (hk : l.kind ∈ TokenKind.words) :
    ∃ rest, text.toList.drop l.first.offset = l.text.toList ++ rest ∧
      if l.kind ∈ TokenKind.connectives then
        ¬IsViable (Lexeme.kinds before ++ [TokenKind.identifier])
      else ∀ c ∈ rest.head?, Lexeme.isWordPart c = false ∧ c ∈ Lexeme.apart := by
  obtain ⟨q, hscans, -⟩ := Parsed.scans h
  rw [hl] at hscans
  obtain ⟨p', q', there, rest, hfinds, hplace, hread, hfeed, hrest⟩ := hscans.at_lexeme rfl
  have hbounded := identifier_mem_wanted_iff hk (mem_wanted_of_feed hfeed)
  refine ⟨rest, hplace, ?_⟩
  split
  · rename_i hconnective
    intro hviable
    obtain ⟨r, hr⟩ := hfinds.feed_of_isViable (l := ⟨.identifier, "", .start, .start⟩) hviable
    exact hbounded.mp (mem_wanted_of_feed hr) hconnective
  · rename_i hconnective
    have hword := Lexeme.word?_of_token? (Lexeme.read_eq_token.mp hread).2 hk
      (hbounded.mpr hconnective)
    intro c hc
    have hpart := Lexeme.isWordPart_of_word? hword hc
    obtain ⟨s, rfl⟩ := List.head?_eq_some_iff.mp hc
    have hread' := hrest.front.resolve_left (List.cons_ne_nil c s)
    exact ⟨hpart, Lexeme.mem_apart_of_read hread' hpart⟩

/-! ## Words as names -/

/-- To be spelled otherwise than the words that begin an operand. -/
def FreeName (name : String) : Prop :=
  ∀ k ∈ TokenKind.operandWords, k.spelling? ≠ some name.toList

/-- A program in which a word is the name of all that can be declared, and of a property. -/
def namingAll (w : String) : String :=
  "class " ++ w ++ " < " ++ w ++ " \x7b " ++ w ++ "(" ++ w ++ ") \x7b this." ++ w ++
    " = super." ++ w ++ "; \x7d \x7d var " ++ w ++ "; fun " ++ w ++ "(" ++ w ++ ") \x7b \x7d"

/-- The forms of that program. -/
def formsOfNamingAll (w : String) : List String :=
  ["(class" ++ w ++ " < " ++ w ++ " (fun " ++ w ++ "(" ++ w ++ ") (; (= this " ++ w ++
    " (super " ++ w ++ ")))))", "(var " ++ w ++ ")", "(fun " ++ w ++ "(" ++ w ++ ") )"]

/-- The words that begin an operand can be names of all else but variables. -/
theorem forms_namingAll {w : String} (hw : ¬FreeName w) :
    (Dump.forms (namingAll w)).toOption = some (formsOfNamingAll w) := by
  have all_named : ∀ k ∈ TokenKind.operandWords, ∀ t ∈ k.spelling?,
      (Dump.forms (namingAll (.ofList t))).toOption = some (formsOfNamingAll (.ofList t)) := by
    simp only [TokenKind.operandWords, List.forall_mem_cons]
    -- word by word, so that no more than one program is evaluated at a time
    refine ⟨?_, ?_, ?_, ?_, ?_, List.forall_mem_nil _⟩
    all_goals decide +kernel
  simp only [FreeName, not_forall, not_not] at hw
  obtain ⟨k, hk, hspelling⟩ := hw
  have hnamed := all_named k hk w.toList hspelling
  rwa [String.ofList_toList] at hnamed

/-- **Reserved words stay within bounds.** In a text that is read, a reserved word is a
whole word, unless it is a connective and stands where no identifier can. No variable of
its tree or its program, and nothing that is assigned to, is called as an operand begins;
but classes and superclasses, functions, methods, parameters, properties and declared
variables can be. -/
theorem Parsed.reserved {text : String} {parsed : Parsed} (h : Parsed.ofText text = .ok parsed) :
    (∀ before l after, parsed.lexemes = before ++ l :: after → l.kind ∈ TokenKind.words →
      ∃ rest, text.toList.drop l.first.offset = l.text.toList ++ rest ∧
        if l.kind ∈ TokenKind.connectives then ¬IsViable (Lexeme.kinds before ++ [.identifier])
        else ∀ c ∈ rest.head?, Lexeme.isWordPart c = false ∧ c ∈ Lexeme.apart) ∧
    (∀ l ∈ parsed.tree.lookups, FreeName l.text) ∧
    (∀ statements, Program.ofText text = .ok statements →
      ∀ s ∈ statements, s.Throughout (Value.NamesVariables FreeName)) ∧
    ∀ w, ¬FreeName w → (Dump.forms (namingAll w)).toOption = some (formsOfNamingAll w) := by
  have hfree : ∀ l ∈ parsed.tree.lookups, FreeName l.text := Parsed.lookups_free h
  exact ⟨fun _ _ _ => Parsed.bounded h, hfree, fun _ => Program.namesVariables h hfree,
    fun _ => forms_namingAll⟩

/-- An `or` that is the front of a longer word, after a variable whose name begins as a
reserved word does. -/
theorem Parsed.reserved_orchid : ∃ parsed, Parsed.ofText "print nils orchid;" = .ok parsed ∧
    parsed.lexemes.map Lexeme.bare =
      [(.printWord, "print"), (.identifier, "nils"), (.orWord, "or"), (.identifier, "chid"),
        (.semicolon, ";")] ∧
    ¬IsViable [.printWord, .identifier, .identifier] ∧
    ∀ l ∈ parsed.tree.lookups, FreeName l.text := by
  have hread : (Parsed.ofText "print nils orchid;").toOption.map
      (fun parsed => parsed.lexemes.map Lexeme.bare) =
        some [(.printWord, "print"), (.identifier, "nils"), (.orWord, "or"),
          (.identifier, "chid"), (.semicolon, ";")] := by decide +kernel
  cases hparsed : Parsed.ofText "print nils orchid;" with
  | error e =>
    rw [hparsed] at hread
    exact nomatch hread
  | ok parsed =>
    rw [hparsed] at hread
    have hlexemes : parsed.lexemes.map Lexeme.bare = _ := Option.some.inj hread
    obtain ⟨hwords, hlookups, -⟩ := Parsed.reserved hparsed
    refine ⟨parsed, rfl, hlexemes, ?_, hlookups⟩
    obtain ⟨print, ls, hls, hprint, hrest⟩ := List.map_eq_cons_iff.mp hlexemes
    obtain ⟨nils, ls, rfl, hnils, hrest⟩ := List.map_eq_cons_iff.mp hrest
    obtain ⟨or, ls, rfl, hor, -⟩ := List.map_eq_cons_iff.mp hrest
    have hkind : or.kind = .orWord := (Prod.mk.inj hor).1
    obtain ⟨_, -, hbounded⟩ := hwords [print, nils] or ls hls (by rw [hkind]; decide)
    rw [hkind, if_pos (by decide)] at hbounded
    rwa [Lexeme.kinds, List.map_cons, List.map_singleton, (Prod.mk.inj hprint).1,
      (Prod.mk.inj hnils).1] at hbounded

end LoxForms
