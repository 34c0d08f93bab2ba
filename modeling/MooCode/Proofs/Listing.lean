/-
  Moo-code — listings as source texts.

  * `isNoise_digits`: a line number is noise, and `tokenize_row`: so is all of a row of a listing,
    but for the spelling of its instruction.
  * `tokenize_rows`: the rows of a listing spell their instructions.
  * `Program.ofSource_listing`: a program is that of its own listing.
  * `Console.listing_reproduced`: a source file and a file with its listing are listed alike.
-/
import MooCode.Proofs.Command
import MooCode.Proofs.Noise

namespace MooCode

namespace Program

open Source (IsNoise tokenize decode)

/-! ## Rows -/

theorem isNoise_digits (n : Nat) : IsNoise (Text.Numeral.digits n) := by
  have hl : Source.letters.all (fun c => !c.isDigit) = true := by decide
  intro c hc hm
  have hd : c.isDigit = true := Nat.isDigit_of_mem_toDigits (by decide) (by decide) hc
  have hn := List.all_eq_true.1 hl c hm
  simp [hd] at hn

/-- The row of an instruction spells it and nothing else; that of the `halt` spells nothing. -/
theorem tokenize_row (i : Instruction) (line : Nat) (cs : List Char) :
    tokenize (row i line ++ cs) = [i].filter (· ≠ .halt) ++ tokenize cs := by
  have hn : IsNoise (Text.Numeral.digits line ++ [' ']) :=
    (isNoise_digits line).append (by decide)
  have he : row i line ++ cs =
      (Text.Numeral.digits line ++ [' ']) ++ (i.label.toList ++ (['\n'] ++ cs)) := by
    simp [row]
  have hnl : tokenize (['\n'] ++ cs) = tokenize cs :=
    IsNoise.tokenize_append (by decide) cs
  rw [he, hn.tokenize_append]
  by_cases hi : i = .halt
  · subst hi
    rw [IsNoise.tokenize_append (by decide), hnl]
    rfl
  · rw [Source.tokenize_label (Instruction.mem_spelled_iff.2 hi), hnl]
    simp [hi]

/-- **The rows of a listing spell their instructions**, from whatever line they are numbered. -/
theorem tokenize_rows (is : List Instruction) (line : Nat) :
    tokenize ((is.zipIdx line).flatMap fun r => row r.1 r.2) = is.filter (· ≠ .halt) := by
  induction is generalizing line with
  | nil => simp [tokenize]
  | cons i is ih =>
    rw [List.zipIdx_cons, List.flatMap_cons, tokenize_row, ih, ← List.filter_append,
      List.singleton_append]

/-! ## Listings -/

theorem listing_eq_join (p : Program) : p.listing = String.join
    (p.instructions.toList.zipIdx.map fun r => toString r.2 ++ " " ++ r.1.label ++ "\n") := by
  have hr : ∀ (i : Instruction) (line : Nat),
      (toString line ++ " " ++ i.label ++ "\n").toList = row i line := by
    intro i line
    simp [row, Text.Numeral.digits]
  rw [← String.toList_inj, listing, String.toList_ofList, String.toList_join, List.flatMap_map]
  simp only [hr]

theorem WellFormed.decode_listing {p : Program} (hp : p.WellFormed) :
    decode p.listing = p.instructions.toList := by
  obtain ⟨is, he, hn⟩ := hp.ends
  have hf : is.filter (· ≠ .halt) = is := by
    rw [List.filter_eq_self]
    intro i hi
    have hne : i ≠ .halt := by
      rintro rfl
      exact hn hi
    simpa using hne
  rw [Source.decode_eq_tokenize, listing, String.toList_ofList, tokenize_rows, he,
    List.filter_append, hf]
  simp

/-- **A program is that of its own listing.** -/
theorem ofSource_listing (text : String) : ofSource (ofSource text).listing = ofSource text := by
  have hd := (wellFormed_ofSource text).decode_listing
  rw [ofSource, hd]
  rfl

end Program

namespace Console

/-! ## The command -/

theorem Options.run_list {o : Options} {w : Surroundings} {text : String} (hl : o.list = true)
    (hf : load w.tree o.file = .ok text) (style : Style) (signal : Signal) (fuel : Nat) :
    o.run style signal fuel w = some (.printed w.tree (Program.ofSource text).listing) := by
  rw [Options.run, Options.prepare_list hf hl]

/-- **A listing is itself the program.**  The listing of the program of a text has a row for each
    instruction, with its line and its spelling, and `[END]` in the last row.  Read as a source text
    it is the same program, so its own listing is the same text.  The command that is asked for a
    listing prints the same text for a file that holds the source and for one that holds the
    listing. -/
theorem listing_reproduced (text : String) :
    let p := Program.ofSource text
    (p.listing = String.join
      (p.instructions.toList.zipIdx.map fun r => toString r.2 ++ " " ++ r.1.label ++ "\n") ∧
      p.instructions.toList.getLast?.map Instruction.label = some "[END]") ∧
    Source.decode p.listing = p.instructions.toList ∧
    (Program.ofSource p.listing).listing = p.listing ∧
    ∀ (o : Options) (w : Surroundings) (style : Style) (signal : Signal) (fuel : Nat),
      o.list = true →
      w.tree.read o.file = .ok (Text.Utf8.encode text.toList) ∨
        w.tree.read o.file = .ok (Text.Utf8.encode p.listing.toList) →
      o.run style signal fuel w = some (.printed w.tree p.listing) := by
  intro p
  have hp : p.WellFormed := Program.wellFormed_ofSource text
  have hs : Program.ofSource p.listing = p := Program.ofSource_listing text
  refine ⟨⟨p.listing_eq_join, ?_⟩, hp.decode_listing, by rw [hs], ?_⟩
  · obtain ⟨is, he, -⟩ := hp.ends
    rw [he, List.getLast?_concat]
    rfl
  · rintro o w style signal fuel hl (hf | hf)
    · exact Options.run_list hl (load_text hf) style signal fuel
    · have hr := Options.run_list hl (load_text hf) style signal fuel
      rwa [hs] at hr

/-- The listing of a program with a loop, listed. -/
theorem listing_reproduced_loop : ∃ (o : Options) (w : Surroundings), o.list = true ∧
    w.tree.read o.file =
      .ok (Text.Utf8.encode "0 MoO\n1 MOO\n2 moo\n3 [END]\n".toList) ∧
    o.run .plain Session.never 0 w = some (.printed w.tree "0 MoO\n1 MOO\n2 moo\n3 [END]\n") := by
  have ht : (Program.ofSource "MoO, MOO (moo)").listing = "0 MoO\n1 MOO\n2 moo\n3 [END]\n" := by
    decide
  have hr : FileTree.read ⟨[(["a"], .file (Text.Utf8.encode
      "0 MoO\n1 MOO\n2 moo\n3 [END]\n".toList))], []⟩ "a" =
        .ok (Text.Utf8.encode "0 MoO\n1 MOO\n2 moo\n3 [END]\n".toList) := rfl
  obtain ⟨-, -, -, hrun⟩ := listing_reproduced "MoO, MOO (moo)"
  rw [ht] at hrun
  exact ⟨⟨"a", 3, none, true, 0⟩, ⟨_, []⟩, rfl, hr, hrun _ _ _ _ _ rfl (Or.inr hr)⟩

end Console

end MooCode
