import Phrasebook.Proofs.Template.Calls

/-!
Where fuel runs out. A call without fuel gives up, and so does a call in which another one does.
There is no other reason: the relation between calls misses none that could give up.
-/
namespace Phrasebook
namespace Call

/-- The fuel of a call, or of one that it led to, was used up. -/
def Stuck (c : Call) : Prop := c.rest = .error .exhausted

def StuckBelow (c : Call) : Prop := ∃ d, c.Makes d ∧ d.Stuck

theorem map_snd_eq_error {α : Type} {x : Except ParseError (Reading α)} {e : ParseError} :
    x.map Prod.snd = .error e ↔ x = .error e := by
  cases x with
  | error e' => exact ⟨fun h => by cases h; rfl, fun h => by cases h; rfl⟩
  | ok a => exact ⟨by rintro ⟨⟩, by rintro ⟨⟩⟩

theorem error_of_bind {α β : Type} {x : Except ParseError α} {f : α → Except ParseError β}
    {e : ParseError} (h : x >>= f = .error e) :
    x = .error e ∨ ∃ a, x = .ok a ∧ f a = .error e := by
  cases x with
  | error e' =>
    cases h
    exact .inl rfl
  | ok a => exact .inr ⟨a, rfl, h⟩

theorem ok_of_exhausted {α β : Type} {x : Except ParseError α} {f : α → Except ParseError β}
    (hx : x ≠ .error .exhausted) (h : x >>= f = .error .exhausted) :
    ∃ a, x = .ok a ∧ f a = .error .exhausted :=
  (error_of_bind h).resolve_left hx

section Steps

variable {level : Nat} {k : TokenKind} {ts : List Token}

theorem descend_ne_exhausted : descend level ts ≠ .error .exhausted := by
  rw [descend]
  split <;> rintro ⟨⟩

theorem expect_ne_exhausted : expect k ts ≠ .error .exhausted := by
  rw [expect]
  split <;> rintro ⟨⟩

theorem exists_cons_of_exhausted {α : Type} {f : List Token → Except ParseError α}
    (h : expect k ts >>= f = .error .exhausted) (hk : k ≠ .eof) :
    ∃ line us, ts = ⟨k, line⟩ :: us ∧ f us = .error .exhausted := by
  obtain ⟨us, hu, hf⟩ := ok_of_exhausted expect_ne_exhausted h
  obtain ⟨line, rfl⟩ := exists_cons_of_expect hu hk
  exact ⟨line, us, rfl, hf⟩

theorem expectName_ne_exhausted : expectName ts ≠ .error .exhausted := by
  rw [expectName.eq_def]
  split <;> rintro ⟨⟩

theorem attributeKey_ne_exhausted : attributeKey ts ≠ .error .exhausted := by
  rw [attributeKey.eq_def]
  split <;> rintro ⟨⟩

theorem testName_ne_exhausted : testName ts ≠ .error .exhausted := by
  intro h
  obtain ⟨⟨first, us⟩, -, h⟩ := ok_of_exhausted expectName_ne_exhausted h
  dsimp only at h
  split at h
  · split at h <;> cases h
  · cases h

theorem loopTargets_ne_exhausted : loopTargets ts ≠ .error .exhausted := by
  intro h
  obtain ⟨⟨first, us⟩, -, h⟩ := ok_of_exhausted expectName_ne_exhausted h
  dsimp only at h
  split at h
  · obtain ⟨⟨second, vs⟩, -, h⟩ := ok_of_exhausted expectName_ne_exhausted h
    obtain ⟨_, ⟨⟩, h⟩ := ok_of_exhausted (by rintro ⟨⟩) h
    dsimp only at h
    split at h <;> cases h
  · obtain ⟨_, ⟨⟩, h⟩ := ok_of_exhausted (by rintro ⟨⟩) h
    dsimp only at h
    split at h <;> cases h

theorem transBody_ne_exhausted {line : Nat} {nodes : List Node} :
    Phrasebook.transBody line nodes ≠ .error .exhausted := by
  rw [Phrasebook.transBody]
  split
  · rintro ⟨⟩
  · split <;> rintro ⟨⟩

theorem setNames_ne_exhausted : Phrasebook.setNames ts ≠ .error .exhausted := by
  -- The function goes on two tokens behind.
  induction hn : ts.length using Nat.strongRecOn generalizing ts with
  | ind n ih =>
    intro h
    rw [Phrasebook.setNames.eq_def] at h
    split at h
    · subst hn
      obtain ⟨_, -, ⟨⟩⟩ := ok_of_exhausted (ih _ (Nat.lt_succ_of_lt (Nat.lt_succ_self _)) rfl) h
    · cases h
    · cases h

theorem closeTag_ne_exhausted : closeTag ts ≠ .error .exhausted := by
  induction ts with
  | nil => rintro ⟨⟩
  | cons t ts ih =>
    rw [closeTag.eq_def]
    split
    · rintro ⟨⟩
    · rintro ⟨⟩
    · rintro ⟨⟩
    · next heq =>
      cases heq
      exact ih

end Steps

section Stuck

variable {fuel minimum level : Nat} {left subject condition : Chain} {ts : List Token}

theorem stuckBelow_expression
    (h : expression (fuel + 1) minimum level ts = .error .exhausted) :
    StuckBelow ⟨.expression minimum level, fuel + 1, ts⟩ := by
  rw [expression] at h
  obtain ⟨level', hl, h⟩ := ok_of_exhausted descend_ne_exhausted h
  obtain ⟨hlt, rfl⟩ := descend_eq_ok hl
  rcases error_of_bind h with hf | ⟨⟨first, us⟩, hf, h⟩
  · exact ⟨_, .operand hlt, map_snd_eq_error.2 hf⟩
  rcases error_of_bind h with ho | ⟨⟨left, vs⟩, ho, hr⟩
  · exact ⟨_, .operations hlt hf, map_snd_eq_error.2 ho⟩
  dsimp only at hr
  split at hr
  · next hm =>
    subst hm
    rcases error_of_bind hr with hc | ⟨_, _, ⟨⟩⟩
    exact ⟨_, .conditionals hlt hf ho, map_snd_eq_error.2 hc⟩
  · cases hr

theorem stuckBelow_operand (h : operand (fuel + 1) level ts = .error .exhausted) :
    StuckBelow ⟨.operand level, fuel + 1, ts⟩ := by
  have signed {s : Sign} {f : Reading Node → Except ParseError (Reading Chain)}
      (hs : (current ts).kind = s.kind)
      (h : expression fuel s.minimum level ts.tail >>= f = .error .exhausted)
      (hf : ∀ a, f a ≠ .error .exhausted) : StuckBelow ⟨.operand level, fuel + 1, ts⟩ := by
    obtain ⟨line, us, rfl⟩ := exists_cons_of_current hs (by cases s <;> rintro ⟨⟩)
    obtain he | ⟨a, -, h⟩ := error_of_bind h
    · exact ⟨_, .signed s, map_snd_eq_error.2 he⟩
    · exact absurd h (hf a)
  rw [operand] at h
  split at h
  · next hn => exact signed (s := .not) (beq_iff_eq.1 hn) h (by rintro _ ⟨⟩)
  · next hn =>
    split at h
    · next hm => exact signed (s := .minus) hm h (by rintro _ ⟨⟩)
    · next hm =>
      split at h
      · next hp => exact signed (s := .plus) hp h (by rintro _ ⟨⟩)
      · next hp =>
        have hs (s : Sign) : (current ts).kind ≠ s.kind := by
          cases s with
          | not => exact fun hk => hn (beq_iff_eq.2 hk)
          | minus => exact hm
          | plus => exact hp
        rcases error_of_bind h with he | ⟨⟨e, us⟩, he, h⟩
        · exact ⟨_, .primary hs, map_snd_eq_error.2 he⟩
        · exact ⟨_, .links hs he, map_snd_eq_error.2 h⟩

theorem stuckBelow_operations
    (h : operations (fuel + 1) minimum left ts = .error .exhausted) :
    StuckBelow ⟨.operations minimum left, fuel + 1, ts⟩ := by
  rw [operations] at h
  split at h
  · cases h
  · next op us hn =>
    split at h
    · cases h
    · next hp =>
      have hp := Nat.not_lt.1 hp
      obtain ⟨level', hl, h⟩ := ok_of_exhausted descend_ne_exhausted h
      obtain ⟨hlt, rfl⟩ := descend_eq_ok hl
      split at h
      · next hs =>
        obtain ⟨⟨name, vs⟩, ht, h⟩ := ok_of_exhausted testName_ne_exhausted h
        rcases error_of_bind h with ha | ⟨⟨arguments, ws⟩, ha, h⟩
        · exact ⟨_, .testArguments hn hp hlt hs ht, map_snd_eq_error.2 ha⟩
        · exact ⟨_, .afterTest hn hp hlt hs ht ha, map_snd_eq_error.2 h⟩
      · next hs =>
        rcases error_of_bind h with hr | ⟨⟨right, vs⟩, hr, h⟩
        · exact ⟨_, .rightOperand hn hp hlt hs, map_snd_eq_error.2 hr⟩
        · exact ⟨_, .afterBinary hn hp hlt hs hr, map_snd_eq_error.2 h⟩

theorem stuckBelow_conditionals
    (h : conditionals (fuel + 1) condition ts = .error .exhausted) :
    StuckBelow ⟨.conditionals condition, fuel + 1, ts⟩ := by
  rw [conditionals] at h
  split at h
  · cases h
  · next hq =>
    obtain ⟨line, us, rfl⟩ := exists_cons_of_atMark (by simpa using hq)
    split at h
    · next hf =>
      obtain ⟨line', vs, hv⟩ := exists_cons_of_atMark hf
      rw [List.tail_cons] at hv
      subst hv
      rcases error_of_bind h with hn | ⟨⟨no, ws⟩, hn, h⟩
      · exact ⟨_, .fallback, map_snd_eq_error.2 hn⟩
      obtain ⟨level', hl, h⟩ := ok_of_exhausted descend_ne_exhausted h
      obtain ⟨hlt, rfl⟩ := descend_eq_ok hl
      exact ⟨_, .afterFallback hn hlt, map_snd_eq_error.2 h⟩
    · next hf =>
      have hf := Bool.eq_false_iff.2 hf
      rcases error_of_bind h with hy | ⟨⟨yes, vs⟩, hy, h⟩
      · exact ⟨_, .yes hf, map_snd_eq_error.2 hy⟩
      dsimp only at h
      split at h
      · next ha =>
        obtain ⟨line', ws, rfl⟩ := exists_cons_of_atMark ha
        rcases error_of_bind h with hn | ⟨⟨no, xs⟩, hn, h⟩
        · exact ⟨_, .no hf hy, map_snd_eq_error.2 hn⟩
        obtain ⟨level', hl, h⟩ := ok_of_exhausted descend_ne_exhausted h
        obtain ⟨hlt, rfl⟩ := descend_eq_ok hl
        exact ⟨_, .afterChoice hf hy hn hlt, map_snd_eq_error.2 h⟩
      · next ha =>
        obtain ⟨level', hl, h⟩ := ok_of_exhausted descend_ne_exhausted h
        obtain ⟨hlt, rfl⟩ := descend_eq_ok hl
        exact ⟨_, .afterGuarded hf hy (Bool.eq_false_iff.2 ha) hlt, map_snd_eq_error.2 h⟩

theorem stuckBelow_primary (h : primary (fuel + 1) level ts = .error .exhausted) :
    StuckBelow ⟨.primary level, fuel + 1, ts⟩ := by
  rw [primary.eq_def] at h
  dsimp only at h
  split at h
  · next name line us =>
    split at h
    · next hc =>
      rw [Bool.and_eq_true, Bool.not_eq_true'] at hc
      obtain ⟨line', vs, rfl⟩ := exists_cons_of_atMark hc.2
      rcases error_of_bind h with ha | ⟨_, _, ⟨⟩⟩
      exact ⟨_, .callArguments hc.1, map_snd_eq_error.2 ha⟩
    · cases h
  · cases h
  · cases h
  · next m line us =>
    split at h
    · next hm =>
      subst hm
      rcases error_of_bind h with hi | ⟨_, _, ⟨⟩⟩
      exact ⟨_, .array, map_snd_eq_error.2 hi⟩
    · split at h
      · next hm =>
        subst hm
        rcases error_of_bind h with he | ⟨_, _, ⟨⟩⟩
        exact ⟨_, .hash, map_snd_eq_error.2 he⟩
      · split at h
        · next hm =>
          subst hm
          rcases error_of_bind h with he | ⟨⟨e, vs⟩, he, h⟩
          · exact ⟨_, .group, map_snd_eq_error.2 he⟩
          · obtain ⟨_, _, ⟨⟩⟩ := ok_of_exhausted expect_ne_exhausted h
        · cases h
  · cases h

theorem stuckBelow_links (h : links (fuel + 1) subject ts = .error .exhausted) :
    StuckBelow ⟨.links subject, fuel + 1, ts⟩ := by
  rw [links] at h
  split at h
  · next hm =>
    obtain ⟨line, us, rfl⟩ := exists_cons_of_atMark hm
    obtain ⟨level', hl, h⟩ := ok_of_exhausted descend_ne_exhausted h
    obtain ⟨hlt, rfl⟩ := descend_eq_ok hl
    obtain ⟨⟨key, vs⟩, hk, h⟩ := ok_of_exhausted attributeKey_ne_exhausted h
    rcases error_of_bind h with ha | ⟨⟨arguments, ws⟩, ha, h⟩
    · exact ⟨_, .memberArguments hlt hk, map_snd_eq_error.2 ha⟩
    · exact ⟨_, .afterMember hlt hk ha, map_snd_eq_error.2 h⟩
  · split at h
    · next hi =>
      obtain ⟨line, us, rfl⟩ := exists_cons_of_atMark hi
      obtain ⟨level', hl, h⟩ := ok_of_exhausted descend_ne_exhausted h
      obtain ⟨hlt, rfl⟩ := descend_eq_ok hl
      rcases error_of_bind h with hk | ⟨⟨key, vs⟩, hk, h⟩
      · exact ⟨_, .itemKey hlt, map_snd_eq_error.2 hk⟩
      obtain ⟨line', ws, rfl, h⟩ := exists_cons_of_exhausted h (by rintro ⟨⟩)
      exact ⟨_, .afterItem hlt hk, map_snd_eq_error.2 h⟩
    · split at h
      · next hf =>
        obtain ⟨line, us, rfl⟩ := exists_cons_of_atMark hf
        obtain ⟨level', hl, h⟩ := ok_of_exhausted descend_ne_exhausted h
        obtain ⟨hlt, rfl⟩ := descend_eq_ok hl
        obtain ⟨⟨name, vs⟩, hn, hr⟩ := ok_of_exhausted expectName_ne_exhausted h
        obtain ⟨line', hv⟩ := exists_cons_of_expectName hn
        rw [List.tail_cons] at hv
        subst hv
        rcases error_of_bind hr with ha | ⟨⟨arguments, ws⟩, ha, hr⟩
        · exact ⟨_, .filterArguments hlt, map_snd_eq_error.2 ha⟩
        · exact ⟨_, .afterFilter hlt ha, map_snd_eq_error.2 hr⟩
      · cases h

theorem stuckBelow_optionalArguments
    (h : optionalArguments (fuel + 1) level ts = .error .exhausted) :
    StuckBelow ⟨.optionalArguments level, fuel + 1, ts⟩ := by
  rw [optionalArguments] at h
  split at h
  · next hp =>
    obtain ⟨line, us, rfl⟩ := exists_cons_of_atMark hp
    rcases error_of_bind h with ha | ⟨_, _, ⟨⟩⟩
    exact ⟨_, .arguments, map_snd_eq_error.2 ha⟩
  · cases h

theorem stuckBelow_argumentList (h : argumentList (fuel + 1) level ts = .error .exhausted) :
    StuckBelow ⟨.argumentList level, fuel + 1, ts⟩ := by
  rw [argumentList] at h
  split at h
  · cases h
  · next he =>
    have he := Bool.eq_false_iff.2 he
    rcases error_of_bind h with ha | ⟨⟨e, us⟩, ha, h⟩
    · exact ⟨_, .argument he, map_snd_eq_error.2 ha⟩
    dsimp only at h
    split at h
    · next hc =>
      obtain ⟨line, vs, rfl⟩ := exists_cons_of_atMark hc
      rcases error_of_bind h with ho | ⟨_, _, ⟨⟩⟩
      exact ⟨_, .nextArgument he ha, map_snd_eq_error.2 ho⟩
    · obtain ⟨_, _, ⟨⟩⟩ := ok_of_exhausted expect_ne_exhausted h

theorem stuckBelow_argument (h : argument (fuel + 1) level ts = .error .exhausted) :
    StuckBelow ⟨.argument level, fuel + 1, ts⟩ := by
  rw [argument.eq_def] at h
  dsimp only at h
  split at h
  · rcases error_of_bind h with hv | ⟨_, _, ⟨⟩⟩
    exact ⟨_, .named, map_snd_eq_error.2 hv⟩
  · next hn =>
    refine ⟨_, .unnamed ?_, map_snd_eq_error.2 h⟩
    rintro name line line' us rfl
    exact hn name line line' us rfl

theorem stuckBelow_itemList (h : itemList (fuel + 1) level ts = .error .exhausted) :
    StuckBelow ⟨.itemList level, fuel + 1, ts⟩ := by
  rw [itemList] at h
  split at h
  · cases h
  · next he =>
    have he := Bool.eq_false_iff.2 he
    rcases error_of_bind h with hi | ⟨⟨e, us⟩, hi, h⟩
    · exact ⟨_, .item he, map_snd_eq_error.2 hi⟩
    dsimp only at h
    split at h
    · next hc =>
      obtain ⟨line, vs, rfl⟩ := exists_cons_of_atMark hc
      rcases error_of_bind h with ho | ⟨_, _, ⟨⟩⟩
      exact ⟨_, .nextItem he hi, map_snd_eq_error.2 ho⟩
    · obtain ⟨_, _, ⟨⟩⟩ := ok_of_exhausted expect_ne_exhausted h

theorem stuckBelow_entryList (h : entryList (fuel + 1) level ts = .error .exhausted) :
    StuckBelow ⟨.entryList level, fuel + 1, ts⟩ := by
  rw [entryList] at h
  split at h
  · cases h
  · next he =>
    have he := Bool.eq_false_iff.2 he
    rcases error_of_bind h with hk | ⟨⟨key, us⟩, hk, h⟩
    · exact ⟨_, .key he, map_snd_eq_error.2 hk⟩
    obtain ⟨line, vs, rfl, hr⟩ := exists_cons_of_exhausted h (by rintro ⟨⟩)
    rcases error_of_bind hr with hv | ⟨⟨value, ws⟩, hv, hr⟩
    · exact ⟨_, .entryValue he hk, map_snd_eq_error.2 hv⟩
    dsimp only at hr
    split at hr
    · next hc =>
      obtain ⟨line', xs, rfl⟩ := exists_cons_of_atMark hc
      rcases error_of_bind hr with ho | ⟨_, _, ⟨⟩⟩
      exact ⟨_, .nextEntry he hk hv, map_snd_eq_error.2 ho⟩
    · obtain ⟨_, _, ⟨⟩⟩ := ok_of_exhausted expect_ne_exhausted hr

theorem stuckBelow_entryKey (h : entryKey (fuel + 1) level ts = .error .exhausted) :
    StuckBelow ⟨.entryKey level, fuel + 1, ts⟩ := by
  rw [entryKey.eq_def] at h
  dsimp only at h
  split at h
  · cases h
  · cases h
  · cases h
  · rcases error_of_bind h with hk | ⟨_, _, h⟩
    · exact ⟨_, .groupKey, map_snd_eq_error.2 hk⟩
    · obtain ⟨_, _, ⟨⟩⟩ := ok_of_exhausted expect_ne_exhausted h
  · cases h

theorem stuckBelow_tagArguments (h : tagArguments (fuel + 1) level ts = .error .exhausted) :
    StuckBelow ⟨.tagArguments level, fuel + 1, ts⟩ := by
  rw [tagArguments] at h
  split at h
  · cases h
  · next he =>
    split at h
    · next hs =>
      obtain hc | hc := Bool.or_eq_true_iff.1 hs
      all_goals
        obtain ⟨line, us, rfl⟩ := exists_cons_of_atMark hc
        exact ⟨_, .separator (by simp), map_snd_eq_error.2 h⟩
    · next hs =>
      have hk : (current ts).kind ∉ [.tagEnd .block, .punctuation ',', .punctuation '='] := by
        simpa [he, atMark] using hs
      rcases error_of_bind h with ha | ⟨⟨e, us⟩, ha, h⟩
      · exact ⟨_, .tagArgument hk, map_snd_eq_error.2 ha⟩
      · rcases error_of_bind h with ho | ⟨_, _, ⟨⟩⟩
        exact ⟨_, .nextTagArgument hk ha, map_snd_eq_error.2 ho⟩

theorem stuckBelow_expressionList (h : expressionList (fuel + 1) level ts = .error .exhausted) :
    StuckBelow ⟨.expressionList level, fuel + 1, ts⟩ := by
  rw [expressionList] at h
  rcases error_of_bind h with he | ⟨⟨e, us⟩, he, h⟩
  · exact ⟨_, .value, map_snd_eq_error.2 he⟩
  dsimp only at h
  split at h
  · cases h
  · next hm =>
    obtain ⟨line, vs, rfl⟩ := exists_cons_of_atMark (by simpa using hm)
    split at h
    · cases h
    · next ht =>
      rcases error_of_bind h with ho | ⟨_, _, ⟨⟩⟩
      exact ⟨_, .nextValue he ht, map_snd_eq_error.2 ho⟩

theorem stuckBelow_transOptions {given : TransOptions}
    (h : transOptions (fuel + 1) level given ts = .error .exhausted) :
    StuckBelow ⟨.transOptions level given, fuel + 1, ts⟩ := by
  rw [transOptions] at h
  split at h
  · next hw =>
    obtain ⟨line, us, rfl⟩ := exists_cons_of_atName hw
    rcases error_of_bind h with he | ⟨⟨e, vs⟩, he, h⟩
    · exact ⟨_, .option (by simp), map_snd_eq_error.2 he⟩
    · exact ⟨_, .afterVars he, map_snd_eq_error.2 h⟩
  · split at h
    · next hf =>
      obtain ⟨line, us, rfl⟩ := exists_cons_of_atName hf
      rcases error_of_bind h with he | ⟨⟨e, vs⟩, he, h⟩
      · exact ⟨_, .option (by simp), map_snd_eq_error.2 he⟩
      · exact ⟨_, .afterDomain he, map_snd_eq_error.2 h⟩
    · split at h
      · next hi =>
        obtain ⟨line, us, rfl⟩ := exists_cons_of_atName hi
        rcases error_of_bind h with he | ⟨⟨e, vs⟩, he, h⟩
        · exact ⟨_, .option (by simp), map_snd_eq_error.2 he⟩
        · exact ⟨_, .afterLocale he, map_snd_eq_error.2 h⟩
      · cases h

variable {line : Nat} {name : String} {closing : List String}

theorem stuckBelow_statements (h : statements (fuel + 1) level closing ts = .error .exhausted) :
    StuckBelow ⟨.statements level closing, fuel + 1, ts⟩ := by
  rw [statements.eq_def] at h
  dsimp only at h
  split at h
  · rcases error_of_bind h with hs | ⟨_, _, ⟨⟩⟩
    exact ⟨_, .afterText, map_snd_eq_error.2 hs⟩
  · rcases error_of_bind h with he | ⟨⟨e, us⟩, he, h⟩
    · exact ⟨_, .printed, map_snd_eq_error.2 he⟩
    obtain ⟨line', vs, rfl, hr⟩ := exists_cons_of_exhausted h (by rintro ⟨⟩)
    rcases error_of_bind hr with hs | ⟨_, _, ⟨⟩⟩
    exact ⟨_, .afterPrint he, map_snd_eq_error.2 hs⟩
  · obtain ⟨⟨name, us⟩, hn, hr⟩ := ok_of_exhausted expectName_ne_exhausted h
    obtain ⟨line', rfl⟩ := exists_cons_of_expectName hn
    dsimp only at hr
    split at hr
    · cases hr
    · next hc =>
      rcases error_of_bind hr with ht | ⟨⟨node, vs⟩, ht, hr⟩
      · exact ⟨_, .tag hc, map_snd_eq_error.2 ht⟩
      rcases error_of_bind hr with hs | ⟨_, _, ⟨⟩⟩
      exact ⟨_, .afterTag hc ht, map_snd_eq_error.2 hs⟩
  · split at h
    · split at h <;> cases h
    · cases h

theorem stuckBelow_block (h : block (fuel + 1) level closing ts = .error .exhausted) :
    StuckBelow ⟨.block level closing, fuel + 1, ts⟩ := by
  rw [block] at h
  obtain ⟨level', hl, h⟩ := ok_of_exhausted descend_ne_exhausted h
  obtain ⟨hlt, rfl⟩ := descend_eq_ok hl
  exact ⟨_, .statements hlt, map_snd_eq_error.2 h⟩

theorem stuckBelow_transTag {closing : String} {count : Option Node} {start : Nat}
    (h : transTag (fuel + 1) level closing count start ts = .error .exhausted) :
    StuckBelow ⟨.transTag level closing count start, fuel + 1, ts⟩ := by
  rw [transTag] at h
  rcases error_of_bind h with ho | ⟨⟨options, us⟩, ho, h⟩
  · exact ⟨_, .transOptions, map_snd_eq_error.2 ho⟩
  obtain ⟨line, vs, rfl, hr⟩ := exists_cons_of_exhausted h (by rintro ⟨⟩)
  rcases error_of_bind hr with hb | ⟨⟨content, ws⟩, hb, hr⟩
  · exact ⟨_, .transBody ho, map_snd_eq_error.2 hb⟩
  obtain ⟨xs, -, hr⟩ := ok_of_exhausted closeTag_ne_exhausted hr
  obtain ⟨_, -, ⟨⟩⟩ := ok_of_exhausted transBody_ne_exhausted hr

theorem stuckBelow_branches {condition : Node}
    (h : branches (fuel + 1) level condition ts = .error .exhausted) :
    StuckBelow ⟨.branches level condition, fuel + 1, ts⟩ := by
  rw [branches] at h
  rcases error_of_bind h with hb | ⟨⟨⟨nodes, close⟩, us⟩, hb, h⟩
  · exact ⟨_, .branchBody, map_snd_eq_error.2 hb⟩
  dsimp only at h
  split at h
  · next hc =>
    subst hc
    rcases error_of_bind h with hn | ⟨⟨next, vs⟩, hn, h⟩
    · exact ⟨_, .nextCondition hb, map_snd_eq_error.2 hn⟩
    obtain ⟨line, ws, rfl, hr⟩ := exists_cons_of_exhausted h (by rintro ⟨⟩)
    rcases error_of_bind hr with ht | ⟨_, _, ⟨⟩⟩
    exact ⟨_, .nextBranch hb hn, map_snd_eq_error.2 ht⟩
  · split at h
    · next he =>
      subst he
      obtain ⟨line, vs, rfl, hr⟩ := exists_cons_of_exhausted h (by rintro ⟨⟩)
      rcases error_of_bind hr with ho | ⟨others, ho, hr⟩
      · exact ⟨_, .elseBody hb, map_snd_eq_error.2 ho⟩
      obtain ⟨_, -, ⟨⟩⟩ := ok_of_exhausted closeTag_ne_exhausted hr
    · obtain ⟨_, -, ⟨⟩⟩ := ok_of_exhausted closeTag_ne_exhausted h

theorem stuckBelow_for (h : tag (fuel + 1) level "for" line ts = .error .exhausted) :
    StuckBelow ⟨.tag level "for" line, fuel + 1, ts⟩ := by
  rw [tag, if_neg (by decide), if_neg (by decide), if_neg (by decide), if_pos rfl] at h
  obtain ⟨⟨targets, us⟩, ht, h⟩ := ok_of_exhausted loopTargets_ne_exhausted h
  rcases error_of_bind h with hs | ⟨⟨sequence, vs⟩, hs, h⟩
  · exact ⟨_, .sequence ht, map_snd_eq_error.2 hs⟩
  rcases error_of_bind h with hc | ⟨⟨condition, ws⟩, hc, h⟩
  · rw [loopCondition] at hc
    split at hc
    · next hi =>
      obtain ⟨line', ws, rfl⟩ := exists_cons_of_atName hi
      rcases error_of_bind hc with he | ⟨_, _, ⟨⟩⟩
      exact ⟨_, .loopCondition ht hs, map_snd_eq_error.2 he⟩
    · cases hc
  obtain ⟨line', xs, rfl, hr⟩ := exists_cons_of_exhausted h (by rintro ⟨⟩)
  rcases error_of_bind hr with hb | ⟨⟨⟨nodes, close⟩, ys⟩, hb, hr⟩
  · exact ⟨_, .loopBody ht hs hc, map_snd_eq_error.2 hb⟩
  dsimp only at hr
  split at hr
  · next he =>
    subst he
    obtain ⟨line'', zs, rfl, hq⟩ := exists_cons_of_exhausted hr (by rintro ⟨⟩)
    rcases error_of_bind hq with ho | ⟨others, ho, hq⟩
    · exact ⟨_, .loopElse ht hs hc hb, map_snd_eq_error.2 ho⟩
    obtain ⟨_, ⟨⟩, hq⟩ := ok_of_exhausted (by rintro ⟨⟩) hq
    obtain ⟨_, -, ⟨⟩⟩ := ok_of_exhausted closeTag_ne_exhausted hq
  · obtain ⟨_, ⟨⟩, hr⟩ := ok_of_exhausted (by rintro ⟨⟩) hr
    obtain ⟨_, -, ⟨⟩⟩ := ok_of_exhausted closeTag_ne_exhausted hr

theorem stuckBelow_blockTag (h : tag (fuel + 1) level "block" line ts = .error .exhausted) :
    StuckBelow ⟨.tag level "block" line, fuel + 1, ts⟩ := by
  rw [tag, if_neg (by decide), if_neg (by decide), if_neg (by decide), if_neg (by decide),
    if_pos rfl] at h
  obtain ⟨⟨name, us⟩, hn, hr⟩ := ok_of_exhausted expectName_ne_exhausted h
  obtain ⟨line', rfl⟩ := exists_cons_of_expectName hn
  dsimp only at hr
  split at hr
  · next he =>
    obtain ⟨line'', vs, rfl⟩ := exists_cons_of_current he (by rintro ⟨⟩)
    rcases error_of_bind hr with hb | ⟨content, hb, hr⟩
    · exact ⟨_, .blockBody, map_snd_eq_error.2 hb⟩
    · obtain ⟨_, -, ⟨⟩⟩ := ok_of_exhausted closeTag_ne_exhausted hr
  · next he =>
    rcases error_of_bind hr with hv | ⟨_, _, hr⟩
    · exact ⟨_, .blockValue he, map_snd_eq_error.2 hv⟩
    · obtain ⟨_, -, ⟨⟩⟩ := ok_of_exhausted expect_ne_exhausted hr

theorem stuckBelow_set (h : tag (fuel + 1) level "set" line ts = .error .exhausted) :
    StuckBelow ⟨.tag level "set" line, fuel + 1, ts⟩ := by
  rw [tag, if_neg (by decide), if_neg (by decide), if_neg (by decide), if_neg (by decide),
    if_neg (by decide), if_pos rfl] at h
  obtain ⟨⟨names, us⟩, hn, hr⟩ := ok_of_exhausted setNames_ne_exhausted h
  dsimp only at hr
  split at hr
  · next hm =>
    obtain ⟨line', vs, rfl⟩ := exists_cons_of_atMark hm
    rcases error_of_bind hr with hv | ⟨_, _, hr⟩
    · exact ⟨_, .setValues hn, map_snd_eq_error.2 hv⟩
    · obtain ⟨_, -, ⟨⟩⟩ := ok_of_exhausted expect_ne_exhausted hr
  · obtain ⟨line', vs, rfl, hq⟩ := exists_cons_of_exhausted hr (by rintro ⟨⟩)
    rcases error_of_bind hq with hb | ⟨content, hb, hq⟩
    · exact ⟨_, .setBody hn, map_snd_eq_error.2 hb⟩
    · obtain ⟨_, -, ⟨⟩⟩ := ok_of_exhausted closeTag_ne_exhausted hq

theorem stuckBelow_otherTag
    (hname : name ∉ ["trans", "transchoice", "if", "for", "block", "set"])
    (h : tag (fuel + 1) level name line ts = .error .exhausted) :
    StuckBelow ⟨.tag level name line, fuel + 1, ts⟩ := by
  obtain ⟨h₁, h₂, h₃, h₄, h₅, h₆⟩ : name ≠ "trans" ∧ name ≠ "transchoice" ∧ name ≠ "if" ∧
      name ≠ "for" ∧ name ≠ "block" ∧ name ≠ "set" := by simpa using hname
  rw [tag, if_neg h₁, if_neg h₂, if_neg h₃, if_neg h₄, if_neg h₅, if_neg h₆] at h
  split at h
  · next hp =>
    rcases error_of_bind h with ha | ⟨⟨arguments, us⟩, ha, h⟩
    · exact ⟨_, .pairedArguments hp, map_snd_eq_error.2 ha⟩
    obtain ⟨line', vs, rfl, hr⟩ := exists_cons_of_exhausted h (by rintro ⟨⟩)
    rcases error_of_bind hr with hb | ⟨content, hb, hr⟩
    · exact ⟨_, .pairedBody hp ha, map_snd_eq_error.2 hb⟩
    · obtain ⟨_, -, ⟨⟩⟩ := ok_of_exhausted closeTag_ne_exhausted hr
  · next hp =>
    split at h
    · cases h
    · next hc =>
      rcases error_of_bind h with ha | ⟨_, _, h⟩
      · refine ⟨_, .looseArguments ?_ (Bool.eq_false_iff.2 hc), map_snd_eq_error.2 ha⟩
        exact fun hm => (List.mem_append.1 hm).elim hname hp
      · obtain ⟨_, -, ⟨⟩⟩ := ok_of_exhausted expect_ne_exhausted h

theorem stuckBelow_tag (h : tag (fuel + 1) level name line ts = .error .exhausted) :
    StuckBelow ⟨.tag level name line, fuel + 1, ts⟩ := by
  by_cases hname : name ∈ ["trans", "transchoice", "if", "for", "block", "set"]
  · simp only [List.mem_cons, List.not_mem_nil, or_false] at hname
    rcases hname with rfl | rfl | rfl | rfl | rfl | rfl
    · rw [tag, if_pos rfl] at h
      exact ⟨_, .trans, map_snd_eq_error.2 h⟩
    · rw [tag, if_neg (by decide), if_pos rfl] at h
      rcases error_of_bind h with hc | ⟨⟨count, us⟩, hc, h⟩
      · exact ⟨_, .count, map_snd_eq_error.2 hc⟩
      · exact ⟨_, .transChoice hc, map_snd_eq_error.2 h⟩
    · rw [tag, if_neg (by decide), if_neg (by decide), if_pos rfl] at h
      rcases error_of_bind h with hc | ⟨⟨condition, us⟩, hc, h⟩
      · exact ⟨_, .condition, map_snd_eq_error.2 hc⟩
      obtain ⟨line', vs, rfl, hr⟩ := exists_cons_of_exhausted h (by rintro ⟨⟩)
      rcases error_of_bind hr with hb | ⟨_, _, ⟨⟩⟩
      exact ⟨_, .branches hc, map_snd_eq_error.2 hb⟩
    · exact stuckBelow_for h
    · exact stuckBelow_blockTag h
    · exact stuckBelow_set h
  · exact stuckBelow_otherTag hname h

/-- A call with fuel left is stuck only in a call that it makes. -/
theorem Stuck.below {c : Call} (h : c.Stuck) : c.fuel = 0 ∨ c.StuckBelow := by
  obtain ⟨reader, fuel, ts⟩ := c
  cases fuel with
  | zero => exact .inl rfl
  | succ fuel =>
    refine .inr ?_
    cases reader with
    | expression => exact stuckBelow_expression (map_snd_eq_error.1 h)
    | operand => exact stuckBelow_operand (map_snd_eq_error.1 h)
    | operations => exact stuckBelow_operations (map_snd_eq_error.1 h)
    | conditionals => exact stuckBelow_conditionals (map_snd_eq_error.1 h)
    | primary => exact stuckBelow_primary (map_snd_eq_error.1 h)
    | links => exact stuckBelow_links (map_snd_eq_error.1 h)
    | optionalArguments => exact stuckBelow_optionalArguments (map_snd_eq_error.1 h)
    | argumentList => exact stuckBelow_argumentList (map_snd_eq_error.1 h)
    | argument => exact stuckBelow_argument (map_snd_eq_error.1 h)
    | itemList => exact stuckBelow_itemList (map_snd_eq_error.1 h)
    | entryList => exact stuckBelow_entryList (map_snd_eq_error.1 h)
    | entryKey => exact stuckBelow_entryKey (map_snd_eq_error.1 h)
    | tagArguments => exact stuckBelow_tagArguments (map_snd_eq_error.1 h)
    | expressionList => exact stuckBelow_expressionList (map_snd_eq_error.1 h)
    | transOptions => exact stuckBelow_transOptions (map_snd_eq_error.1 h)
    | setNames => exact absurd (map_snd_eq_error.1 h) setNames_ne_exhausted
    | closeTag => exact absurd h closeTag_ne_exhausted
    | statements => exact stuckBelow_statements (map_snd_eq_error.1 h)
    | block => exact stuckBelow_block (map_snd_eq_error.1 h)
    | tag => exact stuckBelow_tag (map_snd_eq_error.1 h)
    | transTag => exact stuckBelow_transTag (map_snd_eq_error.1 h)
    | branches => exact stuckBelow_branches (map_snd_eq_error.1 h)

end Stuck

end Call
end Phrasebook
