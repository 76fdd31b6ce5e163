/-
What the environment can set. A plan takes its request to switch at from a
text of any kind; it takes a number below `UInt64.size` that the text writes,
provided that the plan can be carried out with it, and nothing else
(`override_exact`). Whether it can be carried out is asked of the plan as it
then is, not as it was: a plan that was sound may fail by the number that is
set, and one that wanted a number may be mended by it.
-/
import SymbolicSearch.Proofs.Setup
import SymbolicSearch.Proofs.Text.Decimal

namespace SymbolicSearch.Plan

open Text (Writes)

variable {plan : Plan} {raw : String} {n : Nat} {e : Fault}

theorem map_eq_ok {ε α β : Type} {f : α → β} {x : Except ε α} {b : β} :
    x.map f = .ok b ↔ ∃ a, x = .ok a ∧ f a = b := by
  cases x <;> simp [Except.map]

theorem map_eq_error {ε α β : Type} {f : α → β} {x : Except ε α} {e : ε} :
    x.map f = .error e ↔ x = .error e := by
  cases x <;> simp [Except.map]

/-- What fails a check is a misfit. -/
theorem exists_misfit_of_check (h : plan.check = .error e) : ∃ cause, e = .misfit cause := by
  rcases check_cases plan with ⟨-, hcheck⟩ | ⟨-, hcheck⟩ | ⟨-, hcheck⟩ | ⟨-, hcheck⟩
  · exact ⟨.noStyle, Except.error.inj (h.symm.trans hcheck)⟩
  · exact ⟨.guidedTwice, Except.error.inj (h.symm.trans hcheck)⟩
  · exact ⟨.zeroSwitch, Except.error.inj (h.symm.trans hcheck)⟩
  · cases hcheck.symm.trans h

/-- A number that may be set from a text: the text writes it, it fits in a
word, and the plan can be carried out with it. -/
structure Accepts (plan : Plan) (raw : String) (n : Nat) : Prop where
  writes : Writes raw.toList n
  lt : n < UInt64.size
  check : ({ plan with switchAt := n } : Plan).check = .ok ()

/-- A text that writes no number that fits in a word is a fault of its own;
else the number is set and the plan checked with it. -/
theorem override_cases (plan : Plan) (raw : String) :
    ((¬∃ n, Writes raw.toList n ∧ n < UInt64.size) ∧
        plan.override (some raw) = .error (.misfit (.overrideNotNumber switchSetting raw))) ∨
      ∃ n, (Writes raw.toList n ∧ n < UInt64.size) ∧
        plan.override (some raw) =
          ({ plan with switchAt := n } : Plan).check.map fun _ => { plan with switchAt := n } := by
  unfold override
  dsimp only
  cases hcount : Text.count? UInt64.size raw.toList with
  | none => exact Or.inl ⟨Text.count?_eq_none.1 hcount, rfl⟩
  | some n =>
      refine Or.inr ⟨n, Text.count?_eq_some.1 hcount, ?_⟩
      show ({ plan with switchAt := n } : Plan).check.bind (fun _ => pure _) = _
      cases ({ plan with switchAt := n } : Plan).check with
      | error e => rfl
      | ok u => rfl

theorem override_eq_ok {plan' : Plan} : plan.override (some raw) = .ok plan' ↔
    ∃ n, plan.Accepts raw n ∧ plan' = { plan with switchAt := n } := by
  rcases override_cases plan raw with ⟨hnone, h⟩ | ⟨m, ⟨hm, hlt⟩, h⟩
  · rw [h]
    exact iff_of_false nofun fun ⟨n, hn, _⟩ => hnone ⟨n, hn.writes, hn.lt⟩
  · rw [h, map_eq_ok]
    refine ⟨?_, ?_⟩
    · rintro ⟨_, hcheck, rfl⟩
      exact ⟨m, ⟨hm, hlt, hcheck⟩, rfl⟩
    · rintro ⟨n, hn, rfl⟩
      obtain rfl := hn.writes.unique hm
      exact ⟨(), hn.check, rfl⟩

theorem override_eq_error : plan.override (some raw) = .error e ↔
    (¬∃ n, Writes raw.toList n ∧ n < UInt64.size) ∧
        e = .misfit (.overrideNotNumber switchSetting raw) ∨
      ∃ n, Writes raw.toList n ∧ n < UInt64.size ∧
        ({ plan with switchAt := n } : Plan).check = .error e := by
  rcases override_cases plan raw with ⟨hnone, h⟩ | ⟨m, ⟨hm, hlt⟩, h⟩
  · rw [h]
    refine ⟨fun herror => Or.inl ⟨hnone, (Except.error.inj herror).symm⟩, ?_⟩
    rintro (⟨-, rfl⟩ | ⟨n, hn, hlt, -⟩)
    · rfl
    · exact absurd ⟨n, hn, hlt⟩ hnone
  · rw [h, map_eq_error]
    refine ⟨fun herror => Or.inr ⟨m, hm, hlt, herror⟩, ?_⟩
    rintro (⟨hnone, -⟩ | ⟨n, hn, -, herror⟩)
    · exact absurd ⟨m, hm, hlt⟩ hnone
    · obtain rfl := hn.unique hm
      exact herror

theorem exists_misfit_of_override (h : plan.override (some raw) = .error e) :
    ∃ cause, e = .misfit cause := by
  rcases override_eq_error.1 h with ⟨-, rfl⟩ | ⟨n, -, -, hcheck⟩
  · exact ⟨_, rfl⟩
  · exact exists_misfit_of_check hcheck

/-- A text sets a plan's request to switch at to a number, and nothing else
of the plan, just if the text writes that number, it fits in a word, and the
plan can be carried out with it. From any other text there comes a misfit:
that of the plan with the number, or, where the text writes none that fits in
a word, one that names the setting and has the text as it was given. -/
theorem override_exact (plan : Plan) (raw : String) :
    (∀ n, plan.override (some raw) = .ok { plan with switchAt := n } ↔ plan.Accepts raw n) ∧
      ((∃ cause, plan.override (some raw) = .error (.misfit cause)) ↔
        ¬∃ n, plan.Accepts raw n) ∧
      ∀ e, plan.override (some raw) = .error e ↔
        (¬∃ n, Writes raw.toList n ∧ n < UInt64.size) ∧
            e = .misfit (.overrideNotNumber switchSetting raw) ∨
          ∃ n, Writes raw.toList n ∧ n < UInt64.size ∧
            ({ plan with switchAt := n } : Plan).check = .error e := by
  refine ⟨fun n => ?_, ⟨?_, fun hnone => ?_⟩, fun e => override_eq_error⟩
  · rw [override_eq_ok]
    refine ⟨?_, fun hn => ⟨n, hn, rfl⟩⟩
    rintro ⟨m, hm, heq⟩
    obtain rfl : n = m := congrArg switchAt heq
    exact hm
  · rintro ⟨cause, herror⟩ ⟨n, hn⟩
    have hok := override_eq_ok.2 ⟨n, hn, rfl⟩
    cases hok.symm.trans herror
  · cases h : plan.override (some raw) with
    | ok plan' =>
        obtain ⟨n, hn, -⟩ := override_eq_ok.1 h
        exact absurd ⟨n, hn⟩ hnone
    | error e =>
        obtain ⟨cause, rfl⟩ := exists_misfit_of_override h
        exact ⟨cause, rfl⟩

-- the least number that does not fit in a word, and the one before it with zeros in front
example : (⟨[.depth, .guided], 0, .cpu, .auto⟩ : Plan).override (some "18446744073709551616") =
    .error (.misfit (.overrideNotNumber switchSetting "18446744073709551616")) := rfl

example : (⟨[.depth, .guided], 0, .cpu, .auto⟩ : Plan).override
    (some "\u3000+0018446744073709551615\n") =
      .ok ⟨[.depth, .guided], 18446744073709551615, .cpu, .auto⟩ := rfl

example : (⟨[.depth, .guided], 7, .cpu, .auto⟩ : Plan).override (some "000") =
    .error (.misfit .zeroSwitch) := rfl

end SymbolicSearch.Plan
