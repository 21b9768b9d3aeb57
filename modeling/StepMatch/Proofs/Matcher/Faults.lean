import StepMatch.Proofs.Matcher.Programs
import StepMatch.Proofs.Matcher.References

/-!
# Only values are at fault

With the standard types and factories a sentence either fits or does not, or the text of one of its values
cannot be read. What the phrases of a slot took is always resolved, and text in quotes is always read. A
search finds in the group of each slot a text that the slot takes, also where the expression looks ahead, so
it is enough to look at the slots one by one.
-/

namespace StepMatch

open Regex (Accepts)

variable {l : Locale} {t : Text}

/-- Of the standard types, the one called `text` is that of text in quotes. -/
theorem DataTypes.eq_quotedText {name : String} {type : DataType} (found : standard.find name = .ok type)
    (named : type.name = "text") : type = .quotedText := by
  have each : ∀ type ∈ [DataType.word, .identifier, .quotedText, .integer, .long "number",
      .long "long", .decimal "decimal", .date, .time, .dateTime],
      type.name = "text" → type = .quotedText := by
    have other {type : DataType} (ne : type.name ≠ "text") :
        type.name = "text" → type = .quotedText := fun named => absurd named ne
    simp only [List.forall_mem_cons]
    exact ⟨other (by decide), other (by decide), fun _ => trivial, other (by decide), other (by decide),
      other (by decide), other (by decide), other (by decide), other (by decide), other (by decide),
      by simp⟩
  obtain mem | found := Registry.mem_of_find_registerAll found
  · exact each type mem named
  · cases Registry.get?_of_find found

/-- The fault is that of a value, in a slot of its own or in a phrase. -/
def MatchFault.IsOfValue : MatchFault → Prop
  | .argument .. | .assertion (.unreadable _) => True
  | .assertion _ | .regex _ => False

namespace Piece

/-- The slot is for a standard type or a standard factory. -/
def IsStandard : Piece → Prop
  | .pattern _ => True
  | .argument _ type => ∃ name, DataTypes.standard.find name = .ok type
  | .assertion factory => ∃ name, AssertionFactories.standard.find name = .ok factory

/-- What is sure of the text that a slot took. Text in quotes is read, unless it is taken for a reference.
The phrases resolve the text to a key and a value for which the factory builds something, or cannot read
the value, and this never happens with text assertions. -/
def Understands (l : Locale) : Piece → Text → Prop
  | .pattern _, _ => True
  | .argument _ type, t =>
    type.name = "text" → Argument.variableName? t = none → ∃ v, type.parse l t = .ok v
  | .assertion factory, t => ∃ phrases key v?, factory.phrases l = .ok phrases ∧
    phrases.resolve? t = some (key, v?) ∧
    AssertionFactory.BuildsOrRefusesValue (factory.build key v? l) ∧
    (factory.name = "text-assertion" → AssertionFactory.Builds (factory.build key v? l))

theorem isStandard_of_bind {f : Fragment} {piece : Piece} (h : bind .standard .standard f = .ok piece) :
    piece.IsStandard := by
  cases f with
  | pattern p =>
    cases h
    trivial
  | argument slot =>
    rw [bind] at h
    split at h
    · rename_i found
      cases h
      exact ⟨_, found⟩
    · cases h
  | assertion slot =>
    rw [bind] at h
    split at h
    · rename_i found
      cases h
      exact ⟨_, found⟩
    · cases h

/-- What a standard slot takes, it understands. -/
theorem understands_of_takes {piece : Piece} (standard : piece.IsStandard) (takes : piece.Takes l t) :
    piece.Understands l t := by
  cases piece with
  | pattern p => trivial
  | argument binding type =>
    obtain ⟨name, found⟩ := standard
    intro named unread
    obtain rfl := DataTypes.eq_quotedText found named
    obtain reference | own := takes
    · obtain ⟨name, -, rfl⟩ := accepts_variableRegex_iff.1 reference
      exact absurd rfl (Argument.variableName?_eq_none_iff.1 unread name)
    · have mem : t ∈ Regex.accepted (DataType.quotedText.regex l) := own
      rw [(DataType.isShared_quotedText l).accepted_eq] at mem
      exact DataType.exists_parse_quotedText mem
  | assertion factory =>
    obtain ⟨name, found⟩ := standard
    obtain ⟨phrases, phrased, accepts⟩ := takes
    obtain ⟨resolves, texts⟩ := AssertionFactories.resolves_standard found l
    obtain ⟨phrases', phrased', -, each⟩ := resolves
    obtain rfl := Except.ok.inj (phrased.symm.trans phrased')
    obtain ⟨key, v?, resolved, builds⟩ := each t accepts
    refine ⟨phrases, key, v?, phrased, resolved, builds, fun named => ?_⟩
    obtain ⟨phrases', phrased', -, each⟩ := texts named
    obtain rfl := Except.ok.inj (phrased.symm.trans phrased')
    obtain ⟨key', v?', resolved', builds⟩ := each t accepts
    obtain ⟨rfl, rfl⟩ := Prod.mk.inj (Option.some.inj (resolved.symm.trans resolved'))
    exact builds

theorem forall₂_understands {pieces : List Piece} {ts : List Text}
    (standard : ∀ piece ∈ pieces, piece.IsStandard) (takes : List.Forall₂ (Takes l) pieces ts) :
    List.Forall₂ (Understands l) pieces ts := by
  induction takes with
  | nil => exact .nil
  | cons own _ ih =>
    obtain ⟨first, standard⟩ := List.forall_mem_cons.1 standard
    exact .cons (understands_of_takes first own) (ih standard)

/-- What is understood is refused for a value only. -/
theorem isOfValue_of_refusal? {piece : Piece} (understood : piece.Understands l t) {fault : MatchFault}
    (refused : refusal? l (piece, t) = some fault) : fault.IsOfValue := by
  cases piece with
  | pattern p => cases refused
  | argument binding type =>
    rw [refusal?, Argument.read] at refused
    split at refused
    · cases refused
    · rename_i fault' read
      cases refused
      split at read
      · cases read
      · split at read
        · cases read
        · cases read
          trivial
  | assertion factory =>
    obtain ⟨phrases, key, v?, phrased, resolved, builds, -⟩ := understood
    have own : factory.resolve l t = factory.build key v? l := by
      rw [AssertionFactory.resolve, phrased]
      simp only [Except.bind, resolved]
    rw [refusal?, own] at refused
    obtain ⟨a, built⟩ | ⟨unreadable, built⟩ := builds
    · simp [built] at refused
    · simp only [built, Option.some.injEq] at refused
      rw [← refused]
      trivial

end Piece

namespace Matcher

open Piece (forall₂_understands)

variable {m : Matcher} {expression : Text} {default : Locale}

theorem isStandard_of_ofExpression (made : ofExpression .standard .standard expression = .ok m) :
    ∀ piece ∈ m.pieces, piece.IsStandard := by
  obtain ⟨-, fragments, -, -, binds⟩ := exists_fragments made
  exact Piece.forall_of_binds binds (P := fun _ => True) (fun _ _ => trivial)
    fun f piece _ => Piece.isStandard_of_bind

/-- With the standard types and factories, matching any sentence in any locale fails for a value only.
Whatever a slot takes of a sentence is understood. -/
theorem isOfValue_of_matchIn (compiled : compile .standard .standard default expression = .ok m)
    (l : Locale) (sentence : Text) :
    (∀ fault, m.matchIn l sentence = .error fault → fault.IsOfValue) ∧
    ∃ program, m.program l = .ok program ∧ ∀ o, program.regex.search sentence = some o →
      List.Forall₂ (Piece.Understands l) m.slots (capturedTexts o m.slots.length) := by
  have made := ofExpression_of_compile compiled
  have standard := isStandard_of_ofExpression made
  obtain ⟨program, built, -, takes⟩ := exists_program (isSlotted_of_ofExpression
    (DataTypes.areLocal_standard l) (AssertionFactories.havePhrases_standard l) made)
  have understood : ∀ o, program.regex.search sentence = some o →
      List.Forall₂ (Piece.Understands l) m.slots (capturedTexts o m.slots.length) := fun o found =>
    forall₂_understands (fun piece h => standard piece (List.mem_of_mem_filter h)) (takes sentence o found)
  refine ⟨fun fault failed => ?_, program, built, understood⟩
  rw [matchIn, built] at failed
  change m.matchWith program l sentence = _ at failed
  rw [matchWith] at failed
  split at failed
  · cases failed
  · rename_i o found
    cases refused : (m.slots.zip (capturedTexts o m.slots.length)).findSome? (Piece.refusal? l) with
    | none =>
      obtain ⟨result, read, -⟩ := Match.foldlM_of_read (m := {}) refused
      rw [read] at failed
      cases failed
    | some fault' =>
      rw [Match.foldlM_of_refused refused] at failed
      cases failed
      obtain ⟨⟨piece, t⟩, mem, own⟩ := List.exists_of_findSome?_eq_some refused
      exact Piece.isOfValue_of_refusal? (List.forall₂_zip (understood o found) mem) own

/-- With a quoted text, a phrase for numbers, and a negation between them. -/
theorem isOfValue_of_labels : ∃ m,
    compile .standard .standard .default
        "label {x:text} ^spam {{number-assertion}}".toList = .ok m ∧
      ∀ (l : Locale) (sentence : Text),
        (∀ fault, m.matchIn l sentence = .error fault → fault.IsOfValue) ∧
        ∃ program, m.program l = .ok program ∧ ∀ o, program.regex.search sentence = some o →
          List.Forall₂ (Piece.Understands l) m.slots (capturedTexts o m.slots.length) := by
  obtain ⟨m, compiled, -⟩ := exists_ok (p := fun _ => true)
    (x := compile .standard .standard .default "label {x:text} ^spam {{number-assertion}}".toList)
    (by decide +kernel)
  exact ⟨m, compiled, isOfValue_of_matchIn compiled⟩

end Matcher
end StepMatch
