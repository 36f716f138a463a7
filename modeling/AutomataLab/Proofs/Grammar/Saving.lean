import Mathlib.Data.Set.List
import AutomataLab.Grammar.Json
import AutomataLab.Proofs.Json.Decoding

/-!
# Grammars that are written and read again

All of a grammar comes back as it was written, but for some bodies. The sign `ε` is what an empty
body is written as, and in a list of symbols it is passed over. So a symbol of that name comes
back only if the body is written as one text and is not that symbol alone (`Production.Legible`);
what comes back of any other body is told by `Production.readBack`.

Reading gives none of the other bodies. A text of several characters may have `ε` among them, but
then all of its symbols are single characters, and of a list no `ε` is kept. So the grammars that
can be read are those that come back (`loaded_reload`).
-/

namespace AutomataLab

/-! ## Bodies -/

namespace Production

/-- The symbol `ε` stands at most among others, all of them single characters. -/
def Legible (body : List String) : Prop :=
  epsilonName ∈ body → body ≠ [epsilonName] ∧ ∀ s ∈ body, s.length = 1

instance (body : List String) : Decidable (Legible body) := inferInstanceAs (Decidable (_ → _))

/-- What is read of a body that was written. -/
def readBack (body : List String) : List String :=
  if body = [epsilonName] then []
  else if body.all (·.length = 1) then body
  else body.filter (· ≠ epsilonName)

section

variable {body : List String} {text : String} {v : Json}

theorem legible_of_notMem (h : epsilonName ∉ body) : Legible body := fun hmem => absurd hmem h

/-- **A body comes back exactly if it is legible.** -/
theorem readBack_eq_self_iff : readBack body = body ↔ Legible body := by
  unfold readBack
  split
  · next hone =>
    subst hone
    exact iff_of_false (by simp) fun h => (h (List.mem_singleton_self _)).1 rfl
  · next hone =>
    split
    · -- written as one text, the body comes back whatever its characters are
      next hchars => exact iff_of_true rfl fun _ => ⟨hone, by simpa using hchars⟩
    · -- written as a list, it comes back if no symbol of it is passed over
      next hchars =>
      have hlong : ¬∀ s ∈ body, s.length = 1 := by simpa using hchars
      rw [List.filter_eq_self]
      constructor
      · intro hall
        refine legible_of_notMem fun hmem => ?_
        simpa using hall _ hmem
      · intro h s hs
        have hnot : epsilonName ∉ body := fun hmem => hlong (h hmem).2
        exact decide_eq_true (ne_of_mem_of_not_mem hs hnot)

/-! ## Texts -/

theorem join_chars (cs : List Char) : String.join (cs.map Char.toString) = String.ofList cs := by
  refine String.ext ?_
  simp [List.flatMap_map, Char.toString]

theorem exists_chars (h : ∀ s ∈ body, s.length = 1) :
    ∃ cs : List Char, body = cs.map Char.toString := by
  have hrange : body ∈ Set.range (List.map Char.toString) := by
    rw [Set.range_list_map]
    intro s hs
    obtain ⟨c, hc⟩ := List.length_eq_one_iff.1 (String.length_toList.trans (h s hs))
    exact ⟨c, String.ext ((String.toList_singleton c).trans hc.symm)⟩
  obtain ⟨cs, rfl⟩ := hrange
  exact ⟨cs, rfl⟩

/-- A text has the sign of the empty body for its only character if it is that sign. -/
theorem chars_eq_iff : text.toList.map Char.toString = [epsilonName] ↔ text = epsilonName := by
  constructor
  · intro h
    have hjoin := join_chars text.toList
    rw [h, String.ofList_toList] at hjoin
    exact hjoin.symm
  · rintro rfl
    rfl

theorem splitBody_join (h : ∀ s ∈ body, s.length = 1) :
    splitBody (String.join body) = if body = [epsilonName] then [] else body := by
  obtain ⟨cs, rfl⟩ := exists_chars h
  have hsign : cs.map Char.toString = [epsilonName] ↔ String.ofList cs = epsilonName := by
    simpa only [String.toList_ofList] using @chars_eq_iff (String.ofList cs)
  simp only [splitBody, join_chars, hsign, String.toList_ofList]

theorem legible_splitBody : Legible (splitBody text) := by
  unfold splitBody
  split
  · exact legible_of_notMem List.not_mem_nil
  · next hsign =>
    refine fun _ => ⟨fun h => hsign (chars_eq_iff.1 h), List.forall_mem_map.2 fun c _ => ?_⟩
    exact String.length_singleton

/-! ## Values -/

theorem legible_of_bodyOfJson? (h : bodyOfJson? v = some body) : Legible body := by
  unfold bodyOfJson? at h
  split at h
  · exact Option.some.inj h ▸ legible_splitBody
  · split at h
    · next symbols _ =>
      obtain rfl := Option.some.inj h
      exact legible_of_notMem (by simp)
    · exact absurd h (by simp)
  · exact absurd h (by simp)

theorem bodyOfJson?_bodyToJson : bodyOfJson? (bodyToJson body) = some (readBack body) := by
  unfold bodyToJson
  split
  · next hnil =>
    subst hnil
    rfl
  · split
    · next hchars =>
      rw [bodyOfJson?, splitBody_join (by simpa using hchars), readBack, if_pos hchars]
    · next hchars =>
      -- a list has a longer symbol in it, so it is not the sign alone
      have hone : body ≠ [epsilonName] := by
        rintro rfl
        exact hchars rfl
      have hitems : (body.map Json.string).mapM Decoder.string = .ok body :=
        Decoder.list_ofStrings
      rw [readBack, if_neg hone, if_neg hchars, Json.ofStrings, bodyOfJson?, hitems]

theorem bodyDecoder_eq_ok_iff :
    bodyDecoder v = .ok body ↔ v.isReadable = true ∧ bodyOfJson? v = some body := by
  constructor
  · intro h
    obtain ⟨w, hw, h⟩ := bind_eq_ok_iff.1 h
    unfold Decoder.keep at hw
    split at hw
    · next hreadable =>
      obtain rfl := Except.ok.inj hw
      split at h
      · next body' hbody => exact ⟨hreadable, hbody.trans (congrArg some (Except.ok.inj h))⟩
      · exact absurd h (by simp)
    · exact absurd hw (by simp)
  · rintro ⟨hreadable, hbody⟩
    refine bind_eq_ok_iff.2 ⟨v, if_pos hreadable, ?_⟩
    rw [hbody]
    rfl

theorem plain_bodyToJson {n : Nat} : Json.Plain (n + 1) (bodyToJson body) := by
  unfold bodyToJson
  split
  · exact .string
  · split
    · exact .string
    · exact Json.plain_ofStrings

end

/-! ## Productions -/

section

variable {p : Production} {surplus : LoadError} {v : Json}

theorem plain_toJson {n : Nat} : Json.Plain (n + 2) p.toJson := by
  refine .object (List.forall_mem_cons.2 ⟨.string, List.forall_mem_singleton.2 ?_⟩)
  exact plain_bodyToJson

/-- What is read of a production that was written. -/
theorem decode_toJson : RecordField.decoder parts ⟨"", []⟩ surplus p.toJson
    = .ok { p with body := readBack p.body } := by
  have hbody : bodyDecoder (bodyToJson p.body) = .ok (readBack p.body) :=
    bodyDecoder_eq_ok_iff.2 ⟨(plain_bodyToJson (n := 0)).isReadable, bodyOfJson?_bodyToJson⟩
  have hitems : ∀ v ∈ [Json.string p.head, bodyToJson p.body], v.isReadable = true :=
    List.forall_mem_cons.2
      ⟨rfl, List.forall_mem_singleton.2 (plain_bodyToJson (n := 0)).isReadable⟩
  have hzip : p.toJson
      = .object ((parts.map (·.name)).zip [Json.string p.head, bodyToJson p.body]) := rfl
  rw [hzip, RecordField.decoder, RecordField.readObject_zip surplus (by decide) rfl hitems]
  simp only [parts, RecordField.readArray, RecordField.ofDecoder, hbody]
  rfl

/-- Whatever value it is read from, a production has a legible body. -/
theorem legible_of_decoder (h : RecordField.decoder parts ⟨"", []⟩ surplus v = .ok p) :
    Legible p.body := by
  refine RecordField.decoder_invariant (P := fun p : Production => Legible p.body) ?_
    (legible_of_notMem List.not_mem_nil) h
  simp only [parts, List.forall_mem_cons]
  -- reading the head leaves the body, and reading the body makes it legible
  refine ⟨fun q w r hq hr => ?_, fun q w r _ hr => ?_, List.forall_mem_nil _⟩
  · obtain ⟨head, -, rfl⟩ := map_eq_ok_iff.1 hr
    exact hq
  · obtain ⟨body, hbody, rfl⟩ := map_eq_ok_iff.1 hr
    exact legible_of_bodyOfJson? (bodyDecoder_eq_ok_iff.1 hbody).2

end

end Production

/-! ## Grammars -/

namespace Grammar

/-- What is read of a grammar that was written. -/
def readBack (g : Grammar) : Grammar :=
  { g with
    productions := g.productions.map fun p => { p with body := Production.readBack p.body } }

section

variable {g : Grammar} {surplus : LoadError} {v : Json}

theorem readBack_eq_self_iff :
    g.readBack = g ↔ ∀ p ∈ g.productions, Production.Legible p.body := by
  have hproductions : g.readBack = g ↔ g.readBack.productions = g.productions.map id := by
    rw [List.map_id]
    constructor
    · exact fun h => congrArg Grammar.productions h
    · intro h
      calc g.readBack
        _ = { g with productions := g.readBack.productions } := rfl
        _ = g := by rw [h]
  rw [hproductions]
  refine List.map_inj_left.trans (forall₂_congr fun p _ => ?_)
  rw [← Production.readBack_eq_self_iff]
  exact ⟨fun h => congrArg Production.body h, fun h => by rw [h]; rfl⟩

/-- The values of the fields of a grammar. -/
def items (g : Grammar) : List Json :=
  [.ofStrings g.nonterminals, .ofStrings g.terminals,
    .array (g.productions.map Production.toJson), .string g.start]

theorem plain_items {n : Nat} : ∀ v ∈ g.items, Json.Plain (n + 3) v := by
  have hproductions : Json.Plain (n + 3) (.array (g.productions.map Production.toJson)) :=
    .array_map fun _ _ => Production.plain_toJson
  simp only [items, List.forall_mem_cons]
  exact ⟨Json.plain_ofStrings, Json.plain_ofStrings, hproductions, .string, List.forall_mem_nil _⟩

theorem toJson_eq (surplus : LoadError) :
    g.toJson = .object (((parts surplus).map (·.name)).zip g.items) := rfl

theorem plain_toJson {n : Nat} : Json.Plain (n + 4) g.toJson := by
  rw [toJson_eq .notJson]
  exact .object fun e he => plain_items e.2 (List.of_mem_zip he).2

/-- **A grammar that was written is read with the bodies that come back.** -/
theorem decode_toJson : decoder surplus g.toJson = .ok g.readBack := by
  have hproductions : Decoder.list (RecordField.decoder Production.parts ⟨"", []⟩ surplus)
      (.array (g.productions.map Production.toJson)) = .ok g.readBack.productions :=
    Decoder.list_map_eq fun _ _ => Production.decode_toJson
  have hreadable : ∀ v ∈ g.items, v.isReadable = true :=
    fun v hv => (plain_items (n := 0) v hv).isReadable
  have hnames : ((parts surplus).map (·.name)).Nodup := by simp [parts, RecordField.ofDecoder]
  rw [toJson_eq surplus, decoder, RecordField.decoder,
    RecordField.readObject_zip surplus hnames rfl hreadable]
  simp only [parts, items, RecordField.readArray, RecordField.ofDecoder, Decoder.list_ofStrings,
    hproductions]
  rfl

/-- The same of the text. -/
theorem readText_toJson : (decoder surplus).readText g.toJson.pretty = .ok g.readBack := by
  rw [Decoder.readText_pretty (plain_toJson (n := 123)), decode_toJson]

theorem legible_of_decoder (h : decoder surplus v = .ok g) :
    ∀ p ∈ g.productions, Production.Legible p.body := by
  refine RecordField.decoder_invariant
    (P := fun g : Grammar => ∀ p ∈ g.productions, Production.Legible p.body) ?_
    (List.forall_mem_nil _) h
  simp only [parts, List.forall_mem_cons]
  -- of the four fields only that of the productions touches them
  refine ⟨fun g w r hg hr => ?_, fun g w r hg hr => ?_, fun g w r _ hr => ?_, fun g w r hg hr => ?_,
    List.forall_mem_nil _⟩
  · obtain ⟨names, -, rfl⟩ := map_eq_ok_iff.1 hr
    exact hg
  · obtain ⟨names, -, rfl⟩ := map_eq_ok_iff.1 hr
    exact hg
  · obtain ⟨productions, hlist, rfl⟩ := map_eq_ok_iff.1 hr
    intro p hp
    obtain ⟨u, hu⟩ := Decoder.exists_of_mem_list hlist p hp
    exact Production.legible_of_decoder hu
  · obtain ⟨start, -, rfl⟩ := map_eq_ok_iff.1 hr
    exact hg

/-- Written and read again, a grammar with legible bodies is the same. -/
theorem reload_of_legible (h : ∀ p ∈ g.productions, Production.Legible p.body) :
    ofJson g.toJson = .ok g ∧ ofText g.toJson.pretty = .ok g := by
  have hself := readBack_eq_self_iff.2 h
  exact ⟨decode_toJson.trans (congrArg _ hself), readText_toJson.trans (congrArg _ hself)⟩

end

/--
**What was read comes back, and nothing else does.**

A grammar that was read from a value or from a file, whatever form its parts have there, is the same
after it has been written and read again. Such are the grammars with legible bodies: none of them is
the symbol `ε` alone, and none has that symbol beside one that is not a single character.
-/
theorem loaded_reload (g : Grammar) :
    (∀ v, ofJson v = .ok g → ofJson g.toJson = .ok g ∧ ofText g.toJson.pretty = .ok g)
      ∧ (∀ text, ofText text = .ok g → ofJson g.toJson = .ok g ∧ ofText g.toJson.pretty = .ok g)
      ∧ ((∃ v, ofJson v = .ok g) ↔ ∀ p ∈ g.productions, Production.Legible p.body) := by
  refine ⟨fun v h => reload_of_legible (legible_of_decoder h), fun text h => ?_, ?_, fun h => ?_⟩
  · exact reload_of_legible (legible_of_decoder (Decoder.decode_of_readText h))
  · rintro ⟨v, h⟩
    exact legible_of_decoder h
  · exact ⟨_, (reload_of_legible h).1⟩

/-- Bodies in all the ways in which they can be written. -/
def spelled : Grammar where
  nonterminals := ["S", "ε"]
  terminals := ["a", "", "ab"]
  productions := [⟨"S", ["a", "ε", "ε"]⟩, ⟨"S", []⟩, ⟨"S", []⟩, ⟨"ε", ["", "ab", "a"]⟩, ⟨"ε", []⟩]
  start := "S"

/-- A value that the grammar is read from, parts of it as objects and parts as arrays. -/
def spelledJson : Json :=
  let lists (s : String) (body : List String) : Json := .array [.string s, .ofStrings body]
  let texts (s body : String) : Json := .object [("to", .string body), ("from", .string s)]
  .array [.ofStrings spelled.nonterminals, .ofStrings spelled.terminals,
    .array [texts "S" "aεε", texts "S" "ε", texts "S" "", lists "ε" ["ε", "", "ab", "ε", "a"],
      lists "ε" ["ε"]],
    .string "S"]

theorem ofJson_spelledJson : ofJson spelledJson = .ok spelled := by
  have h : (ofJson spelledJson).toOption = some spelled := by decide +kernel
  cases hg : ofJson spelledJson with
  | error e =>
    rw [hg] at h
    exact absurd h (by simp [Except.toOption])
  | ok g =>
    rw [hg] at h
    exact congrArg _ (Option.some.inj h)

theorem spelled_loaded_reload :
    ofJson spelledJson = .ok spelled ∧ ofJson spelled.toJson = .ok spelled
      ∧ ofText spelled.toJson.pretty = .ok spelled
      ∧ ¬∃ v, ofJson v = .ok { spelled with productions := [⟨"S", ["ε"]⟩] } := by
  obtain ⟨hvalue, -, -⟩ := loaded_reload spelled
  obtain ⟨hjson, htext⟩ := hvalue spelledJson ofJson_spelledJson
  refine ⟨ofJson_spelledJson, hjson, htext, fun h => ?_⟩
  have hlegible := (loaded_reload _).2.2.1 h ⟨"S", ["ε"]⟩ List.mem_cons_self
  exact (hlegible List.mem_cons_self).1 rfl

end Grammar

end AutomataLab
