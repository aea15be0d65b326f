namespace WorkflowKeeper

theorem bind_ok {ε α β : Type} {x : Except ε α} {f : α → Except ε β} {b : β} (h : (x >>= f) = .ok b) :
    ∃ a, x = .ok a ∧ f a = .ok b := by
  cases x with
  | error e => cases h
  | ok a => exact ⟨a, rfl, h⟩

theorem eq_ok_of_toOption {ε α : Type} {x : Except ε α} {a : α} (h : x.toOption = some a) : x = .ok a := by
  cases x with
  | error e => cases h
  | ok b => exact congrArg Except.ok (Option.some.inj h)

theorem lookup_replaced {κ β : Type} [BEq κ] [LawfulBEq κ] [DecidableEq κ] (entries : List (κ × β)) (k j : κ) (v : β) :
    ((k, v) :: entries.filter fun e => e.1 != k).lookup j = if j = k then some v else entries.lookup j := by
  have hfilter (h : j ≠ k) : (entries.filter fun e => e.1 != k).lookup j = entries.lookup j := by
    induction entries with
    | nil => rfl
    | cons e entries ih =>
        obtain ⟨i, q⟩ := e
        by_cases hi : i = k
        · have hji : (j == i) = false := beq_false_of_ne (hi ▸ h)
          simp [List.lookup_cons, hi ▸ hji, hi, ih]
        · simp [List.lookup_cons, hi, ih]
  by_cases hj : j = k
  · simp [hj]
  · have hjk : (j == k) = false := beq_false_of_ne hj
    simp [List.lookup_cons, hjk, hj, hfilter hj]

namespace Runs

variable {ε σ α β : Type}

theorem run_pure (a : α) (s : σ) : (pure a : ExceptT ε (StateM σ) α).run s = (.ok a, s) := rfl

theorem run_throw (e : ε) (s : σ) : (throw e : ExceptT ε (StateM σ) α).run s = (.error e, s) := rfl

theorem run_get (s : σ) : (get : ExceptT ε (StateM σ) σ).run s = (.ok s, s) := rfl

theorem run_set (t s : σ) : (set t : ExceptT ε (StateM σ) PUnit).run s = (.ok ⟨⟩, t) := rfl

theorem run_bind (m : ExceptT ε (StateM σ) α) (f : α → ExceptT ε (StateM σ) β) (s : σ) :
    (m >>= f).run s = match m.run s with
      | (.ok a, t) => (f a).run t
      | (.error e, t) => (.error e, t) := by
  simp only [ExceptT.run, bind, ExceptT.bind, ExceptT.mk, ExceptT.bindCont, StateT.bind]
  obtain ⟨r, t⟩ := m s
  cases r <;> rfl

theorem run_bind_ok {m : ExceptT ε (StateM σ) α} {f : α → ExceptT ε (StateM σ) β} {s : σ} {b : β}
    (h : ((m >>= f).run s).1 = .ok b) : ∃ a t, m.run s = (.ok a, t) ∧ ((f a).run t).1 = .ok b := by
  rw [run_bind] at h
  rcases hrun : m.run s with ⟨e | a, t⟩
  · rw [hrun] at h
    cases h
  · rw [hrun] at h
    exact ⟨a, t, rfl, h⟩

theorem run_bind_of_ok {m : ExceptT ε (StateM σ) α} {a : α} {s t : σ} (h : m.run s = (.ok a, t))
    (f : α → ExceptT ε (StateM σ) β) : (m >>= f).run s = (f a).run t := by
  rw [run_bind, h]

theorem run_map (f : α → β) (m : ExceptT ε (StateM σ) α) (s : σ) :
    (f <$> m).run s = ((m.run s).1.map f, (m.run s).2) := by
  simp only [ExceptT.run, Functor.map, ExceptT.map, ExceptT.mk, bind, StateT.bind]
  obtain ⟨r, t⟩ := m s
  cases r <;> rfl

theorem run_tryCatch (m : ExceptT ε (StateM σ) α) (f : ε → ExceptT ε (StateM σ) α) (s : σ) :
    (tryCatch m f).run s = match m.run s with
      | (.ok a, t) => (.ok a, t)
      | (.error e, t) => (f e).run t := by
  simp only [ExceptT.run, tryCatch, tryCatchThe, MonadExceptOf.tryCatch, ExceptT.tryCatch, ExceptT.mk, bind,
    StateT.bind]
  obtain ⟨r, t⟩ := m s
  cases r <;> rfl

end Runs

end WorkflowKeeper
