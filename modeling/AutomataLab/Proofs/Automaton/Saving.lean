import AutomataLab.Automaton.Json
import AutomataLab.Proofs.Automaton.Descriptions
import AutomataLab.Proofs.Json.Decoding

/-!
# Automata that are saved and loaded again

The file that an automaton is saved in tells the kind and then, field by field, what the automaton
tells about itself (`decode_fields`). So what is loaded from the file is what that describes: the
automaton itself if it is deterministic, and the automaton made tidy if it is not (`reload_exact`).

Removing a state, a symbol or a transition may leave an entry without targets or a row without
entries. They mean the same as none at all, and they are the only thing that is not loaded again
(`trimmed_reload`).
-/

namespace AutomataLab

/-! ## The fields of a file -/

/-- The values of the fields that both kinds of automaton have, after the kind. -/
def Signature.items (g : Signature) (transitions : Json) : List Json :=
  [.ofStrings g.states, .array (g.alphabet.map .ofChar), transitions, .string g.initial,
    .ofStrings g.accepting.toList]

section

open Json

variable {n : Nat}

theorem plain_items {g : Signature} {transitions : Json} (h : Plain (n + 1) transitions) :
    ∀ v ∈ g.items transitions, Plain (n + 1) v := by
  have halphabet : Plain (n + 1) (.array (g.alphabet.map .ofChar)) := .array_map fun _ _ => .string
  simp only [Signature.items, List.forall_mem_cons]
  exact ⟨plain_ofStrings, halphabet, h, .string, plain_ofStrings, List.forall_mem_nil _⟩

end

namespace Decoder

theorem onlyChar_toString {c : Char} : onlyChar c.toString = .ok c := by
  rw [onlyChar, Char.toString, String.toList_singleton]

theorem list_ofChar {l : List Char} : list char (.array (l.map .ofChar)) = .ok l :=
  list_map fun _ _ => onlyChar_toString

end Decoder

namespace Automaton

section

variable {kind : Kind} {name : String}

theorem takeKind_of_some {others : List (String × Json)}
    (hnames : ∀ e ∈ others, e.1 ≠ "type") (hvalues : ∀ e ∈ others, e.2.isReadable = true) :
    takeKind (some kind) others = .ok (some kind, others) := by
  induction others with
  | nil => rfl
  | cons e rest ih =>
    obtain ⟨hname, hnames⟩ := List.forall_mem_cons.1 hnames
    obtain ⟨hvalue, hvalues⟩ := List.forall_mem_cons.1 hvalues
    -- only a second field of that name would be refused
    rw [takeKind, if_neg hname, Decoder.keep, if_pos hvalue, ih hnames hvalues]
    rfl

theorem ofJson_of_kind {others : List (String × Json)}
    (hkind : Kind.decoder (.string name) = .ok kind)
    (hnames : ∀ e ∈ others, e.1 ≠ "type") (hvalues : ∀ e ∈ others, e.2.isReadable = true) :
    ofJson (.object (("type", .string name) :: others)) = ofParts kind (.object others) := by
  rw [ofJson, takeKind, if_pos rfl, if_neg (by simp), hkind]
  change (takeKind (some kind) others >>= _) = _
  rw [takeKind_of_some hnames hvalues]
  rfl

/-- What is loaded from a file that tells the kind before all other fields. -/
theorem readText_of_kind {n : Nat} {names : List String} {items : List Json}
    (hn : n + 1 = Json.maxDepth) (hkind : Kind.decoder (.string name) = .ok kind)
    (hnames : "type" ∉ names) (hitems : ∀ v ∈ items, Json.Plain n v) :
    Decoder.readText ofJson (Json.object (("type", .string name) :: names.zip items)).pretty
      = ofParts kind (.object (names.zip items)) := by
  have hplain : Json.Plain (n + 1) (.object (("type", .string name) :: names.zip items)) := by
    refine .object (List.forall_mem_cons.2 ⟨.string, fun e he => ?_⟩)
    exact hitems e.2 (List.of_mem_zip he).2
  rw [Decoder.readText_pretty (hn ▸ hplain)]
  -- the text is read back as the value, and its fields are kept until the kind is known
  refine ofJson_of_kind hkind (fun e he hname => ?_) fun e he => ?_
  · exact hnames (hname ▸ (List.of_mem_zip he).1)
  · exact (hitems e.2 (List.of_mem_zip he).2).isReadable

end

end Automaton

/-! ## Deterministic automata -/

namespace DFA

variable {d : DFA}

/-- The moves, as the file has them. -/
def tableToJson (table : Table) : Json :=
  .object (table.entries.map fun e => (e.1, rowToJson e.2))

/-- The parts of a description. -/
abbrev Description.parts : List (RecordField Description) :=
  AutomataLab.Description.parts (.map .ok (.map Decoder.onlyChar .string))

/-- The fields of a file, after the kind. -/
def fields (d : DFA) : List (String × Json) :=
  (Description.parts.map (·.name)).zip (d.items (tableToJson d.transitions))

theorem toJson_eq : d.toJson = .object (("type", .string "dfa") :: d.fields) := rfl

theorem plain_tableToJson {n : Nat} {table : Table} : Json.Plain (n + 2) (tableToJson table) :=
  .object_map fun _ _ => .object_map fun _ _ => .string

theorem decode_tableToJson {table : Table} :
    Decoder.map .ok (.map Decoder.onlyChar .string) (tableToJson table) = .ok table := by
  have hrow : ∀ row : Row, Decoder.map Decoder.onlyChar .string (rowToJson row) = .ok row := by
    intro row
    refine (Decoder.map_entries Char.toString .string id (fun _ _ => Decoder.onlyChar_toString)
      fun _ _ => rfl).trans ?_
    simp only [id_eq, SortedMap.map_self]
  refine (Decoder.map_entries id rowToJson id (fun _ _ => rfl) fun e _ => hrow e.2).trans ?_
  simp only [id_eq, SortedMap.map_self]

/-- The fields are those of what the automaton tells about itself. -/
theorem decode_fields : Description.decoder (.object d.fields) = .ok d.describe := by
  have hitems : ∀ v ∈ d.items (tableToJson d.transitions), v.isReadable = true :=
    fun v hv => (plain_items (plain_tableToJson (n := 0)) v hv).isReadable
  rw [Description.decoder, RecordField.decoder, fields,
    RecordField.readObject_zip .invalidLength (by decide) rfl hitems]
  simp only [AutomataLab.Description.parts, Signature.items, RecordField.readArray,
    RecordField.ofDecoder, Decoder.list_ofStrings, Decoder.list_ofChar, decode_tableToJson]
  rfl

theorem reload (h : d.WellFormed) :
    Decoder.readText Automaton.ofJson (Automaton.dfa d).fileText = .ok (.dfa d) := by
  have hkind : Automaton.Kind.decoder (.string "dfa") = .ok .dfa := rfl
  have hnames : "type" ∉ Description.parts.map (·.name) := by decide
  calc Decoder.readText Automaton.ofJson (Automaton.dfa d).fileText
    _ = Automaton.ofParts .dfa (.object d.fields) := by
      rw [Automaton.fileText, Automaton.toJson, toJson_eq]
      exact Automaton.readText_of_kind (n := 126) rfl hkind hnames (plain_items plain_tableToJson)
    _ = ((ofDescription d.describe).map Automaton.dfa).mapError .automaton := by
      rw [Automaton.ofParts, decode_fields]
      rfl
    _ = .ok (.dfa d) := by
      rw [ofDescription_describe h]
      rfl

end DFA

/-! ## Nondeterministic automata -/

namespace NFA

variable {n : NFA}

/-- The moves, as the file has them. -/
def tableToJson (table : Table) : Json :=
  .object (table.entries.map fun e => (e.1, rowToJson e.2))

/-- The values of the fields of a file, after the kind. -/
def items (n : NFA) : List Json :=
  n.toSignature.items (tableToJson n.transitions) ++ [.ofChar epsilonSign, .bool n.usesEpsilon]

/-- The fields of a file, after the kind. -/
def fields (n : NFA) : List (String × Json) := (Description.parts.map (·.name)).zip n.items

theorem toJson_eq : n.toJson = .object (("type", .string "nfa") :: n.fields) := rfl

theorem plain_tableToJson {m : Nat} {table : Table} : Json.Plain (m + 3) (tableToJson table) :=
  .object_map fun _ _ => .object_map fun _ _ => Json.plain_ofStrings

theorem plain_items {m : Nat} : ∀ v ∈ n.items, Json.Plain (m + 3) v := by
  refine List.forall_mem_append.2 ⟨AutomataLab.plain_items plain_tableToJson, ?_⟩
  simp only [List.forall_mem_cons]
  exact ⟨.string, .bool, List.forall_mem_nil _⟩

theorem symbolKey_text {x : Symbol} (hx : x ≠ .char epsilonSign) : symbolKey x.text = .ok x := by
  have htext : Symbol.ofText? x.text = some x := by
    rw [Symbol.ofText?, Symbol.toList_text]
    exact congrArg some (Symbol.ofSign_sign hx)
  rw [symbolKey, htext]

/-- The symbols of a table can be told by their texts, since none is the sign of the empty move. -/
theorem decode_tableToJson (h : n.WellFormed) :
    Decoder.map .ok (.map symbolKey (.list .string)) (tableToJson n.transitions)
      = .ok (n.transitions.map fun _ row => row.map fun _ s => s.toList) := by
  refine Decoder.map_entries id rowToJson (fun row => row.map fun _ s => s.toList)
    (fun _ _ => rfl) fun e he => ?_
  have hrow := (h.transitions e.1 e.2 (SortedMap.get?_eq_some_iff.2 he)).2
  refine Decoder.map_entries Symbol.text (fun s : StateSet => Json.ofStrings s.toList)
    (fun s => s.toList) (fun f hf => symbolKey_text ?_) fun _ _ => Decoder.list_ofStrings
  -- this is where the table has to be well formed
  exact h.ne_sign (hrow f.1 f.2 (SortedMap.get?_eq_some_iff.2 hf)).1

/-- The fields are those of what the automaton tells about itself. -/
theorem decode_fields (h : n.WellFormed) :
    Description.decoder (.object n.fields) = .ok n.describe := by
  have hitems : ∀ v ∈ n.items, v.isReadable = true :=
    fun v hv => (plain_items (m := 0) v hv).isReadable
  rw [Description.decoder, RecordField.decoder, fields,
    RecordField.readObject_zip .invalidLength (by decide) rfl hitems]
  simp only [Description.parts, AutomataLab.Description.parts, items, Signature.items,
    List.map_cons, List.map_nil, List.cons_append, List.nil_append, RecordField.readArray,
    RecordField.within, RecordField.ofDecoder, Decoder.list_ofStrings, Decoder.list_ofChar,
    decode_tableToJson h]
  rfl

theorem reload (h : n.WellFormed) :
    Decoder.readText Automaton.ofJson (Automaton.nfa n).fileText = .ok (.nfa n.tidy) := by
  have hkind : Automaton.Kind.decoder (.string "nfa") = .ok .nfa := rfl
  have hnames : "type" ∉ Description.parts.map (·.name) := by decide
  calc Decoder.readText Automaton.ofJson (Automaton.nfa n).fileText
    _ = Automaton.ofParts .nfa (.object n.fields) := by
      rw [Automaton.fileText, Automaton.toJson, toJson_eq]
      exact Automaton.readText_of_kind (n := 126) rfl hkind hnames plain_items
    _ = ((ofDescription n.describe).map Automaton.nfa).mapError .automaton := by
      rw [Automaton.ofParts, decode_fields h]
      rfl
    _ = .ok (.nfa n.tidy) := by
      rw [ofDescription_describe h]
      rfl

end NFA

/-! ## Automata of either kind -/

namespace Automaton

/-- The automata that can come up. -/
def Built : Automaton → Prop
  | dfa d => d.Built
  | nfa n => n.Built

/-- The automaton without entries that have no targets and rows that have no entries. -/
def tidy : Automaton → Automaton
  | dfa d => dfa d
  | nfa n => nfa n.tidy

section

variable {a : Automaton}

theorem built_of_ofParts {kind : Kind} {parts : Json} (h : ofParts kind parts = .ok a) :
    a.Built := by
  cases kind with
  | dfa =>
    obtain ⟨e, -, h⟩ := bind_eq_ok_iff.1 h
    obtain ⟨d, hd, rfl⟩ := map_mapError_eq_ok_iff.1 h
    exact DFA.Built.described hd
  | nfa =>
    obtain ⟨e, -, h⟩ := bind_eq_ok_iff.1 h
    obtain ⟨n, hn, rfl⟩ := map_mapError_eq_ok_iff.1 h
    exact NFA.Built.described hn

/-- What is loaded is made from the parts of some kind of automaton. -/
theorem exists_parts_of_ofJson {v : Json} (h : ofJson v = .ok a) :
    ∃ kind parts, ofParts kind parts = .ok a := by
  unfold ofJson at h
  split at h
  · obtain ⟨⟨kind, others⟩, -, h⟩ := bind_eq_ok_iff.1 h
    cases kind with
    | none => exact absurd h (by simp)
    | some kind => exact ⟨kind, _, h⟩
  · exact absurd h (by simp)
  · obtain ⟨kind, -, h⟩ := bind_eq_ok_iff.1 h
    obtain ⟨items, -, h⟩ := bind_eq_ok_iff.1 h
    exact ⟨kind, _, h⟩
  · exact absurd h (Decoder.mismatch_ne_ok _ _)

/-- What is loaded is among the automata that can come up. -/
theorem built_of_ofJson {v : Json} (h : ofJson v = .ok a) : a.Built := by
  obtain ⟨kind, parts, hparts⟩ := exists_parts_of_ofJson h
  exact built_of_ofParts hparts

theorem reload_eq_tidy (h : a.Built) : Decoder.readText ofJson a.fileText = .ok a.tidy := by
  cases a with
  | dfa d => exact DFA.reload (DFA.built_wellFormed h)
  | nfa n => exact NFA.reload (NFA.built_wellFormed h)

/--
**What was saved can be loaded, and it comes back tidy.**

A deterministic automaton is loaded again as it was. A nondeterministic one is exactly if it is
tidy, that is, if each row that it keeps has an entry and each entry a target.
-/
theorem reload_exact (ha : a.Built) :
    Decoder.readText ofJson a.fileText = .ok a.tidy
      ∧ (∀ d, a = dfa d → Decoder.readText ofJson a.fileText = .ok a)
      ∧ ∀ n, a = nfa n →
        (Decoder.readText ofJson a.fileText = .ok a ↔ NFA.TableTidy n.transitions) := by
  have hreload := reload_eq_tidy ha
  refine ⟨hreload, ?_, ?_⟩
  · rintro d rfl
    exact hreload
  · rintro n rfl
    rw [hreload, Except.ok.injEq, tidy, nfa.injEq]
    exact NFA.tidy_eq_self_iff

end

theorem regrown_reload_exact :
    (dfa DFA.regrown).Built ∧ (nfa NFA.trimmed).Built
      ∧ Decoder.readText ofJson (dfa DFA.regrown).fileText = .ok (dfa DFA.regrown)
      ∧ ∃ n, Decoder.readText ofJson (nfa NFA.trimmed).fileText = .ok (nfa n)
        ∧ n.transitions = .ofList [("0", .ofList [(.char 'a', .ofList ["2"])])] := by
  have hdfa : (dfa DFA.regrown).Built := DFA.regrown_built
  have hnfa : (nfa NFA.trimmed).Built := NFA.trimmed_built
  refine ⟨hdfa, hnfa, (reload_exact hdfa).2.1 _ rfl, NFA.trimmed.tidy, (reload_exact hnfa).1, ?_⟩
  decide +kernel

/-- An entry that lost its targets is not loaded again. -/
theorem trimmed_reload :
    (nfa NFA.trimmed).Built
      ∧ (∃ row, NFA.trimmed.transitions.get? "0" = some row ∧ row.get? .epsilon = some ∅)
      ∧ Decoder.readText ofJson (nfa NFA.trimmed).fileText ≠ .ok (nfa NFA.trimmed) := by
  have hbuilt : (nfa NFA.trimmed).Built := NFA.trimmed_built
  refine ⟨hbuilt, ⟨_, rfl, rfl⟩, ?_⟩
  rw [reload_eq_tidy hbuilt, Ne, Except.ok.injEq]
  decide +kernel

end Automaton

end AutomataLab
