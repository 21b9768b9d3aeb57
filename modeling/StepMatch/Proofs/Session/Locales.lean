import StepMatch.Proofs.Locale.Conventions
import StepMatch.Proofs.Matcher.Faults
import StepMatch.Proofs.Session.Histories

/-!
# Matching in locales that are alike

A matcher of standard pieces asks these for regexes and has them read what stands in its slots. So in
locales with the same conventions it has the same regex and takes the same texts for the same arguments,
or fails with the same fault, but for the locale that it names. What a session keeps for one of the
locales does not show in the other.
-/

namespace StepMatch

variable {l l' : Locale}

namespace Piece

/-- The piece is the same in both locales, but for the locale that faults name. -/
structure SameIn (piece : Piece) (l l' : Locale) : Prop where
  body : piece.body l' = (piece.body l).mapError (.inLocale l')
  readSlot : ∀ m t, Match.readSlot l' m (piece, t) =
    (Match.readSlot l m (piece, t)).mapError (.inLocale l')

variable {pieces : List Piece}

theorem sameIn_argument (binding : String) {type : DataType} (same : type.SameIn l l') :
    (argument binding type).SameIn l l' where
  body := by
    rw [Piece.body, Piece.body, same.regex]
    rfl
  readSlot m t := by
    refine mapError_map _ ?_
    rw [Argument.read, Argument.read, same.parse]
    split
    · rfl
    · cases type.parse l t <;> rfl

theorem sameIn_assertion {factory : AssertionFactory} (same : factory.SameIn l l') :
    (assertion factory).SameIn l l' where
  body := by
    rw [Piece.body, Piece.body, same.phrases]
    cases made : factory.phrases l with
    | error fault =>
      refine congrArg (fun f => Except.error (MatchFault.assertion f)) ?_
      exact (same.placeless fault made).symm
    | ok phrases => rfl
  readSlot m t := by
    rw [Match.readSlot, Match.readSlot, same.resolve]
    cases factory.resolve l t <;> rfl

/-- Standard pieces look at nothing but the conventions. -/
theorem sameIn_of_isStandard {piece : Piece} (standard : piece.IsStandard)
    (same : l.SameConventions l') : piece.SameIn l l' := by
  cases piece with
  | pattern p => exact ⟨rfl, fun _ _ => rfl⟩
  | argument binding type =>
    obtain ⟨name, found⟩ := standard
    exact sameIn_argument binding (DataTypes.sameIn_standard same found)
  | assertion factory =>
    obtain ⟨name, found⟩ := standard
    exact sameIn_assertion (AssertionFactories.sameIn_standard same found)

theorem concatRegex_inLocale (each : ∀ piece ∈ pieces, piece.SameIn l l') (slot : Nat) :
    concatRegex l' slot pieces = (concatRegex l slot pieces).mapError (.inLocale l') := by
  induction pieces generalizing slot with
  | nil => rfl
  | cons piece pieces ih =>
    obtain ⟨own, each⟩ := List.forall_mem_cons.1 each
    rw [concatRegex, concatRegex]
    refine mapError_bind own.body fun t => ?_
    split
    · exact mapError_bind (ih each (slot + 1)) fun _ => rfl
    · exact mapError_bind (ih each slot) fun _ => rfl

end Piece

namespace Matcher

variable {m : Matcher}

theorem program_inLocale (each : ∀ piece ∈ m.pieces, piece.SameIn l l') :
    m.program l' = (m.program l).mapError (.inLocale l') := by
  refine mapError_bind (Piece.concatRegex_inLocale each 0) fun body => ?_
  dsimp only
  split <;> rfl

/-- A matcher of pieces that are the same in both locales comes to the same. -/
theorem matchIn_inLocale (each : ∀ piece ∈ m.pieces, piece.SameIn l l') (sentence : Text) :
    m.matchIn l' sentence = (m.matchIn l sentence).mapError (.inLocale l') := by
  refine mapError_bind (program_inLocale each) fun p => ?_
  rw [matchWith, matchWith]
  split
  · rfl
  · refine mapError_map _ (mapError_foldlM (fun m' x mem => ?_) ({} : Match))
    obtain ⟨piece, t⟩ := x
    exact (each piece (List.mem_of_mem_filter (List.of_mem_zip mem).1)).readSlot m' t

end Matcher

/-- A matcher of standard pieces comes to the same in locales with the same conventions. -/
theorem Matcher.matchIn_of_sameConventions {expression : Text} {m : Matcher}
    (made : ofExpression .standard .standard expression = .ok m) (same : l.SameConventions l')
    (sentence : Text) : m.matchIn l' sentence = (m.matchIn l sentence).mapError (.inLocale l') :=
  matchIn_inLocale (fun piece mem =>
    Piece.sameIn_of_isStandard (isStandard_of_ofExpression made piece mem) same) sentence

/-- Whatever was done in a session with the standard registries, a matcher held there answers as one that
keeps nothing. -/
theorem Session.matchIn_performAll {s : Session} (new : s.IsNew) (stock : s.stock = .standard)
    {steps : List Step} {name : String} {m : HeldMatcher}
    (held : (s.performAll steps).matcher? name = some m) :
    Matcher.ofExpression .standard .standard m.expression = .ok m.base ∧ ∀ l sentence,
      ((s.performAll steps).matchIn name m l sentence).1 = m.base.matchIn l sentence := by
  have sound := new.isSound.performAll steps
  have compiled := sound.matchers name m held
  refine ⟨?_, fun l sentence => matchIn_fst sound.kept compiled.toIsSound name l sentence⟩
  have bound := compiled.bound
  rwa [(performAll_setting s steps).1, stock, Stock.baseTypes_standard, Stock.baseFactories_standard]
    at bound

/-- In locales that are alike everything standard is the same, but for the locale that faults name: the
conventions, the data types, the factories, what a compiled expression makes of a sentence, and what the
matchers of an expression make of it in sessions, whatever was done there before. -/
theorem Locale.Alike.agree (alike : l.Alike l') :
    l.SameConventions l' ∧
    (∀ name type, DataTypes.standard.find name = .ok type → type.SameIn l l') ∧
    (∀ name factory, AssertionFactories.standard.find name = .ok factory → factory.SameIn l l') ∧
    (∀ default expression m, Matcher.compile .standard .standard default expression = .ok m →
      ∀ sentence, m.matchIn l' sentence = (m.matchIn l sentence).mapError (.inLocale l')) ∧
    ∀ s s' : Session, s.IsNew → s'.IsNew → s.stock = .standard → s'.stock = .standard →
      ∀ steps steps' name name' m m', (s.performAll steps).matcher? name = some m →
        (s'.performAll steps').matcher? name' = some m' → m.expression = m'.expression →
        ∀ sentence, ((s'.performAll steps').matchIn name' m' l' sentence).1 =
          ((s.performAll steps).matchIn name m l sentence).1.mapError (.inLocale l') := by
  have same := alike.sameConventions
  refine ⟨same, fun _ _ => DataTypes.sameIn_standard same, fun _ _ =>
    AssertionFactories.sameIn_standard same, fun default expression m compiled sentence => ?_, ?_⟩
  · exact Matcher.matchIn_of_sameConventions (Matcher.ofExpression_of_compile compiled) same sentence
  · intro s s' new new' stock stock' steps steps' name name' m m' held held' written sentence
    obtain ⟨made, answers⟩ := Session.matchIn_performAll new stock held
    obtain ⟨made', answers'⟩ := Session.matchIn_performAll new' stock' held'
    rw [written, made'] at made
    rw [answers, answers', ← Except.ok.inj made]
    exact Matcher.matchIn_of_sameConventions made' same sentence

/-- Esperanto as written in France, which has no conventions of its own, and American English. -/
theorem Locale.agree_of_esperanto :
    let esperanto : Locale := { language := "eo", region := some "FR", variants := ["hsistemo"] }
    esperanto.Alike .default ∧ esperanto.SameConventions .default ∧
      (∀ name type, DataTypes.standard.find name = .ok type → type.SameIn esperanto .default) ∧
      (∀ name factory, AssertionFactories.standard.find name = .ok factory →
        factory.SameIn esperanto .default) ∧
      ∃ m, Matcher.compile .standard .standard .default "due {d:date}".toList = .ok m ∧
        ∀ sentence, m.matchIn .default sentence =
          (m.matchIn esperanto sentence).mapError (.inLocale .default) := by
  intro esperanto
  have alike : esperanto.Alike .default := by decide
  obtain ⟨same, types, factories, matches_, -⟩ := Locale.Alike.agree alike
  obtain ⟨m, compiled, -⟩ := exists_ok (p := fun _ => true)
    (x := Matcher.compile .standard .standard .default "due {d:date}".toList) (by decide +kernel)
  exact ⟨alike, same, types, factories, m, compiled, matches_ _ _ m compiled⟩

end StepMatch
