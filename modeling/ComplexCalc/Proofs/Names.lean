import ComplexCalc.Proofs.ReadBack

/-!
# Names — which names a tree has, and which names are asked for

A name is a word that means nothing else (section 1).  The names of a tree, each once, are in ascending order, by their
characters and so by their bytes (section 2).  Reading a source text keeps its names and functions as they stand, and
all that is ever asked for are names of a text that was read (section 3).
-/

namespace ComplexCalc

/-! ## 1. Names -/

/-- What a variable can be called: letters and digits behind a letter, but no word with another meaning. -/
structure IsName (x : String) : Prop where
  word : Word x.toList
  free : x ∉ ["i", "conjugate", "root"]

theorem isName_of_spelledBy {x : String} {slice : List Char} (h : (Token.name x).SpelledBy slice) : IsName x := by
  cases h with
  | name hword hunit hbuiltin =>
    refine ⟨by rwa [String.toList_ofList], ?_⟩
    have hother : ∀ y : String, slice ≠ y.toList → String.ofList slice ≠ y := by
      rintro y hne rfl
      exact hne String.toList_ofList.symm
    simp only [List.mem_cons, List.not_mem_nil, or_false, not_or]
    exact ⟨hother "i" hunit, hother "conjugate" (hbuiltin .conjugate), hother "root" (hbuiltin .root)⟩

theorem Expr.Readable.isName {e : Expr} (h : e.Readable) : ∀ x ∈ e.occurrences, IsName x := by
  induction e with
  | lit z => exact List.forall_mem_nil _
  | var x => exact List.forall_mem_singleton.mpr (isName_of_spelledBy h)
  | binary op a b iha ihb => exact List.forall_mem_append.mpr ⟨iha h.1, ihb h.2⟩
  | call f a ih => exact ih h

/-- The bytes of a text in UTF-8. -/
def bytes (x : String) : List UInt8 :=
  x.toUTF8.data.toList

theorem bytes_eq_flatMap (x : String) : bytes x = x.toList.flatMap String.utf8EncodeChar := by
  rw [bytes, String.toUTF8, ← String.utf8Encode_toList, List.utf8Encode, List.toList_data_toByteArray]

/-- Each letter and each digit is one byte. -/
theorem IsName.bytes_eq {x : String} (h : IsName x) : bytes x = x.toList.map (·.val.toUInt8) := by
  have hletters := h.word.isAlphanum
  rw [bytes_eq_flatMap]
  generalize x.toList = cs at hletters
  induction cs with
  | nil => rfl
  | cons c cs ih =>
    obtain ⟨hc, hcs⟩ := List.forall_mem_cons.mp hletters
    rw [List.flatMap_cons, ih hcs, String.utf8EncodeChar_eq_singleton (utf8Size_of_isAlphanum hc)]
    rfl

theorem toUInt8_lt {c d : Char} (hc : c.isAlphanum = true) (hd : d.isAlphanum = true) (h : c < d) :
    c.val.toUInt8 < d.val.toUInt8 := by
  have hsmall := Char.utf8Size_eq_one_iff.mp (utf8Size_of_isAlphanum hc)
  have hsmall' := Char.utf8Size_eq_one_iff.mp (utf8Size_of_isAlphanum hd)
  -- both are below 128, so nothing is lost in a byte
  rw [Char.lt_def] at h
  rw [UInt8.lt_iff_toNat_lt, UInt32.toNat_toUInt8, UInt32.toNat_toUInt8]
  rw [UInt32.le_iff_toNat_le] at hsmall hsmall'
  rw [UInt32.lt_iff_toNat_lt] at h
  change c.val.toNat ≤ 127 at hsmall
  change d.val.toNat ≤ 127 at hsmall'
  omega

/-- Names compare by their bytes as they do by their characters. -/
theorem IsName.bytes_lt {x y : String} (hx : IsName x) (hy : IsName y) (h : x < y) : bytes x < bytes y := by
  have hletters := hx.word.isAlphanum
  have hletters' := hy.word.isAlphanum
  rw [hx.bytes_eq, hy.bytes_eq]
  rw [String.lt_iff] at h
  generalize x.toList = cs at hletters h
  generalize y.toList = ds at hletters' h
  -- the induction is on where the two texts differ first
  induction h with
  | nil => exact .nil
  | rel hlt => exact .rel (toUInt8_lt (hletters _ List.mem_cons_self) (hletters' _ List.mem_cons_self) hlt)
  | cons _ ih =>
    exact .cons (ih (List.forall_mem_cons.mp hletters).2 (List.forall_mem_cons.mp hletters').2)

/-! ## 2. Names in ascending order -/

namespace Expr

theorem mem_insertName {x y : String} {names : List String} : y ∈ insertName x names ↔ y = x ∨ y ∈ names := by
  induction names with
  | nil => simp [insertName]
  | cons first names ih =>
    rw [insertName]
    split
    · exact List.mem_cons
    · split
      · rename_i hsame
        rw [hsame, List.mem_cons]
        simp
      · rw [List.mem_cons, ih, List.mem_cons]
        exact or_left_comm

/-- A name goes before the first one that is greater, so the list stays ascending. -/
theorem pairwise_insertName (x : String) {names : List String} (h : names.Pairwise (· < ·)) :
    (insertName x names).Pairwise (· < ·) := by
  induction names with
  | nil => exact List.pairwise_singleton _ _
  | cons first names ih =>
    have htail := List.pairwise_cons.mp h
    rw [insertName]
    split
    · rename_i hbefore
      refine List.pairwise_cons.mpr ⟨?_, h⟩
      intro y hy
      rcases List.mem_cons.mp hy with rfl | hy
      · exact hbefore
      · exact String.lt_trans hbefore (htail.1 y hy)
    · split
      · exact h
      · rename_i hnot hne
        refine List.pairwise_cons.mpr ⟨?_, ih htail.2⟩
        intro y hy
        rcases mem_insertName.mp hy with rfl | hy
        · exact Std.lt_of_le_of_ne (String.not_lt.mp hnot) (Ne.symm hne)
        · exact htail.1 y hy

theorem mem_variableNames {e : Expr} {x : String} : x ∈ e.variableNames ↔ x ∈ e.occurrences := by
  rw [variableNames]
  induction e.occurrences with
  | nil => exact Iff.rfl
  | cons first names ih => rw [List.foldr_cons, mem_insertName, ih, List.mem_cons]

theorem pairwise_variableNames (e : Expr) : e.variableNames.Pairwise (· < ·) := by
  rw [variableNames]
  induction e.occurrences with
  | nil => exact .nil
  | cons first names ih => exact pairwise_insertName first ih

end Expr

/-! ## 3. Source texts and evaluations -/

/-- The tree has the names and the functions of the source text, in the same order, and lists each name once. -/
structure KeepsNames (source : String) (e : Expr) : Prop where
  tokens : ∃ ts, tokenize source = .ok ts ∧ e.occurrences = namesOf ts ∧ e.calls = builtinsOf ts
  isName : ∀ x ∈ e.occurrences, IsName x
  collected : ∀ x, x ∈ e.variableNames ↔ x ∈ e.occurrences
  ascending : e.variableNames.Pairwise fun x y => bytes x < bytes y

theorem keepsNames_of_parse {source : String} {e : Expr} (h : Expr.parse source = .ok e) : KeepsNames source e := by
  obtain ⟨ts, htokens, hread⟩ := tokenize_of_parse h
  have hderives := ofLexemes_sound hread
  have hnames := (readable_of_parse h).isName
  refine ⟨⟨ts, htokens, hderives.occurrences_eq, hderives.calls_eq⟩, hnames, fun x => Expr.mem_variableNames, ?_⟩
  refine e.pairwise_variableNames.imp_of_mem fun hx hy hlt => ?_
  exact (hnames _ (Expr.mem_variableNames.mp hx)).bytes_lt (hnames _ (Expr.mem_variableNames.mp hy)) hlt

/-- Only names were asked for so far, and each tree that was noted keeps the names of its text. -/
structure Context.WellNamed (c : Context) : Prop where
  requested : ∀ x ∈ c.script.requested, IsName x
  parsed : ∀ source e, .parsed source e ∈ c.transcript → KeepsNames source e

theorem keepsNames_of_parseEvents {text source : String} {e : Expr} (h : .parsed source e ∈ parseEvents text) :
    KeepsNames source e := by
  unfold parseEvents at h
  split at h
  · cases h
  · rename_i ts htokens
    obtain h := (List.mem_cons.mp h).resolve_left nofun
    split at h
    · cases h
    · -- the tree is noted only where the text is read to its end
      rename_i tree hread
      cases List.mem_singleton.mp h
      apply keepsNames_of_parse
      rw [Expr.parse, htokens]
      exact hread

/-- An event that notes no tree. -/
theorem not_parsed_mem {event : Event} (h : ∀ source e, event ≠ .parsed source e) :
    ∀ source e, .parsed source e ∈ [event] → KeepsNames source e :=
  fun source e he => absurd (List.mem_singleton.mp he).symm (h source e)

namespace Context.WellNamed
variable {c : Context}

theorem noting (h : c.WellNamed) {events : List Event}
    (hevents : ∀ source e, .parsed source e ∈ events → KeepsNames source e) : (c.noting events).WellNamed := by
  refine ⟨h.requested, fun source e he => ?_⟩
  rcases List.mem_append.mp he with he | he
  · exact h.parsed source e he
  · exact hevents source e he

theorem storing (h : c.WellNamed) (s : Store) : (c.storing s).WellNamed :=
  ⟨h.requested, h.parsed⟩

theorem asked (h : c.WellNamed) {x : String} (hx : IsName x) : (c.asked x).WellNamed := by
  have hnoted : (c.noting [.requested x]).WellNamed := h.noting (not_parsed_mem nofun)
  refine ⟨fun y hy => ?_, hnoted.parsed⟩
  rw [Context.asked, Script.requested_request] at hy
  rcases List.mem_append.mp hy with hy | hy
  · exact h.requested y hy
  · rwa [List.mem_singleton.mp hy]

theorem inside (h : c.WellNamed) {x : String} (hx : IsName x) (typed : String) : (c.inside x typed).WellNamed :=
  ((h.asked hx).storing .empty).noting fun _ _ => keepsNames_of_parseEvents

end Context.WellNamed

/-- A run asks for names of its expression, or of what is typed on the way. -/
theorem Runs.wellNamed {e c r after} (h : Runs e c r after) (he : ∀ x ∈ e.occurrences, IsName x) (hc : c.WellNamed) :
    after.WellNamed := by
  -- a typed text is a source text of its own, so its names are those of its own tokens
  induction h with
  | lit => exact hc
  | reused => exact hc.noting (not_parsed_mem nofun)
  | cancelled => exact hc.asked (List.forall_mem_singleton.mp he)
  | unreadable => exact (hc.asked (List.forall_mem_singleton.mp he)).noting (not_parsed_mem nofun)
  | blank => exact hc.asked (List.forall_mem_singleton.mp he)
  | malformed => exact (hc.asked (List.forall_mem_singleton.mp he)).noting fun _ _ => keepsNames_of_parseEvents
  | @invalid x typed _ _ _ _ _ hread _ ih =>
    exact (ih (keepsNames_of_parse hread).isName (hc.inside (List.forall_mem_singleton.mp he) typed)).storing _
  | @bound x typed _ _ _ _ _ hread _ ih =>
    have hinside := ih (keepsNames_of_parse hread).isName (hc.inside (List.forall_mem_singleton.mp he) typed)
    exact (hinside.storing _).noting (not_parsed_mem nofun)
  | binary _ _ _ iha ihb =>
    obtain ⟨ha, hb⟩ := List.forall_mem_append.mp he
    exact ihb hb (iha ha hc)
  | divided _ _ _ iha ihb =>
    obtain ⟨ha, hb⟩ := List.forall_mem_append.mp he
    exact ihb hb (iha ha hc)
  | left _ ih => exact ih (List.forall_mem_append.mp he).1 hc
  | right _ _ iha ihb =>
    obtain ⟨ha, hb⟩ := List.forall_mem_append.mp he
    exact ihb hb (iha ha hc)
  | call _ ih => exact ih he hc
  | argument _ ih => exact ih he hc

theorem wellNamed_evaluate (source : String) (replies : List Reply) : (evaluate source replies).2.WellNamed := by
  have hstart : (Context.started source replies).WellNamed := by
    refine ⟨List.forall_mem_nil _, fun text e he => ?_⟩
    exact keepsNames_of_parseEvents ((List.mem_cons.mp he).resolve_left nofun)
  rcases evaluate_cases source replies with ⟨_, _, heval⟩ | ⟨e, x, after, hread, hrun, heval⟩ |
      ⟨e, z, after, hread, hrun, heval⟩
  · rw [heval]
    exact hstart
  · rw [heval]
    exact hrun.wellNamed (keepsNames_of_parse hread).isName hstart
  · rw [heval]
    exact (hrun.wellNamed (keepsNames_of_parse hread).isName hstart).noting (not_parsed_mem nofun)

/-- A source text that is read keeps its names and functions as they stand, and its tree lists the names in ascending
order.  So does every text that is read in the course of an evaluation, and only such names are ever asked for. -/
theorem names_are_kept :
    (∀ source e, Expr.parse source = .ok e → KeepsNames source e) ∧
      ∀ source replies,
        (∀ text e, .parsed text e ∈ (evaluate source replies).2.transcript → KeepsNames text e) ∧
          ∀ x ∈ (evaluate source replies).2.script.requested, IsName x :=
  ⟨fun _ _ => keepsNames_of_parse,
    fun source replies => ⟨(wellNamed_evaluate source replies).parsed, (wellNamed_evaluate source replies).requested⟩⟩

example : (Expr.parse "b * a + conjugate(a)").map Expr.variableNames = .ok ["a", "b"] := by cbv

end ComplexCalc
