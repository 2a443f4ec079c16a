import CodeOnLinux.Foundation.Machine

/-!
# Comparing two computations

A function that is written over the system calls it makes is run over more than one system, and
with more than one bound for its loops. Two such runs are compared outcome by outcome: they
`Agree` where both fail with the same fault or both return related values, and one is `Below` the
other where what it returns is returned by the other too. Both are kept by sequencing, so a
comparison of two programs of the same shape is put together from that of their parts.
-/

namespace CodeOnLinux

namespace Checked

variable {α α' β β' : Type}

/-! ## Related outcomes -/

/-- Both fail with the same fault, or both return and `R` relates what they return. -/
inductive Agree (R : α → β → Prop) : Checked α → Checked β → Prop
  | ok {a : α} {b : β} (h : R a b) : Agree R (.ok a) (.ok b)
  | error (e : Fault) : Agree R (.error e) (.error e)

variable {R : α → β → Prop} {S : α' → β' → Prop} {x : Checked α} {y : Checked β}

theorem Agree.bind {f : α → Checked α'} {g : β → Checked β'} (h : Agree R x y)
    (hfg : ∀ a b, R a b → Agree S (f a) (g b)) : Agree S (x >>= f) (y >>= g) := by
  cases h with
  | ok hab => exact hfg _ _ hab
  | error e => exact .error e

theorem Agree.refl (x : Checked α) : Agree Eq x x := by
  cases x with
  | ok a => exact .ok rfl
  | error e => exact .error e

/-- The same computation of a value in front of two programs. -/
theorem Agree.bind_same {f : α → Checked α'} {g : α → Checked β'}
    (hfg : ∀ a, Agree S (f a) (g a)) : Agree S (x >>= f) (x >>= g) :=
  (Agree.refl x).bind fun a _ hab ↦ hab ▸ hfg a

theorem Agree.exists_right (h : Agree R x y) {a : α} (hx : x = .ok a) :
    ∃ b, y = .ok b ∧ R a b := by
  cases h with
  | ok hab =>
    obtain rfl := Except.ok.inj hx
    exact ⟨_, rfl, hab⟩
  | error e => cases hx

/-- What `x` returns, `y` returns. -/
def Below (x y : Checked α) : Prop := ∀ a, x = .ok a → y = .ok a

theorem Below.refl (x : Checked α) : Below x x := fun _ h ↦ h

theorem below_error (e : Fault) (y : Checked α) : Below (.error e) y := fun _ h ↦ by cases h

theorem Below.bind {x y : Checked α} {f g : α → Checked β} (h : Below x y)
    (hfg : ∀ a, Below (f a) (g a)) : Below (x >>= f) (y >>= g) := by
  intro b hb
  obtain ⟨a, ha, hb⟩ := bind_eq_ok.mp hb
  exact bind_eq_ok.mpr ⟨a, h a ha, hfg a b hb⟩

/-- Where two bounds both suffice, the outcome is the same: one of them is the larger. -/
theorem eq_of_below {x : ℕ → Checked α} (h : ∀ m n, m ≤ n → Below (x m) (x n)) {m n : ℕ} {a b : α}
    (hm : x m = .ok a) (hn : x n = .ok b) : a = b := by
  rcases le_total m n with hle | hle
  · exact Except.ok.inj ((h m n hle a hm).symm.trans hn)
  · exact Except.ok.inj (hm.symm.trans (h n m hle b hn))

end Checked

end CodeOnLinux
