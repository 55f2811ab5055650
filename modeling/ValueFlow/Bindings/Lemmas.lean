import ValueFlow.Bindings

namespace ValueFlow.Bindings

variable {f : Value → Value → Value} {d e : DeclId} {v w : Value}
  {entries rest : List (DeclId × Value)}

@[simp] theorem findIn_nil : findIn d [] = none := rfl

theorem findIn_cons : findIn d ((e, w) :: rest) = if e = d then some w else findIn d rest := by
  by_cases h : e = d <;> simp [findIn, h]

theorem index_ne_of_ne (h : d ≠ e) : d.index ≠ e.index :=
  fun hi => h (by cases d; cases e; simp_all)

theorem findIn_eq_none (h : ∀ x ∈ entries, d.index < x.1.index) : findIn d entries = none := by
  induction entries with
  | nil => rfl
  | cons x rest ih =>
    obtain ⟨e, w⟩ := x
    have hne : e ≠ d := fun he => by have := h (e, w) (by simp); simp [he] at this
    rw [findIn_cons, if_neg hne]
    exact ih fun x hx => h x (List.mem_cons_of_mem _ hx)

theorem findIn_of_mem (h : Ascending entries) (hmem : (d, v) ∈ entries) :
    findIn d entries = some v := by
  induction entries with
  | nil => cases hmem
  | cons x rest ih =>
    obtain ⟨e, w⟩ := x
    obtain ⟨hhead, htail⟩ := List.pairwise_cons.1 h
    rw [findIn_cons]
    rcases List.mem_cons.1 hmem with hd | hd
    · cases hd
      rw [if_pos rfl]
    · have hlt := hhead (d, v) hd
      rw [if_neg (fun he => by subst he; exact Nat.lt_irrefl _ hlt)]
      exact ih htail hd

theorem findIn_insertInto (h : Ascending entries) : findIn e (insertInto f d v entries) =
    if d = e then some ((findIn e entries).elim v (f · v)) else findIn e entries := by
  induction entries with
  | nil => simp [insertInto, findIn_cons]
  | cons x rest ih =>
    obtain ⟨c, w⟩ := x
    obtain ⟨hhead, htail⟩ := List.pairwise_cons.1 h
    simp only [insertInto]
    split
    · rename_i hlt
      have hnone : findIn d ((c, w) :: rest) = none := by
        refine findIn_eq_none fun x hx => ?_
        rcases List.mem_cons.1 hx with rfl | hx
        · exact hlt
        · exact Nat.lt_trans hlt (hhead x hx)
      rw [findIn_cons]
      by_cases hde : d = e
      · rw [if_pos hde, if_pos hde, ← hde, hnone]; rfl
      · rw [if_neg hde, if_neg hde]
    · split
      · rename_i hdc
        subst hdc
        by_cases hde : d = e <;> simp [findIn_cons, hde]
      · rename_i hdc
        rw [findIn_cons, findIn_cons, ih htail]
        by_cases hce : c = e
        · have hde : d ≠ e := fun hde => hdc (hde.trans hce.symm)
          simp [hce, hde]
        · simp [hce]

theorem find?_insertWith (m : Bindings) : (m.insertWith f d v).find? e =
    if d = e then some ((m.find? e).elim v (f · v)) else m.find? e :=
  findIn_insertInto m.ascending

theorem find?_insert (m : Bindings) :
    (m.insert d v).find? e = if d = e then some v else m.find? e := by
  rw [insert, find?_insertWith]
  cases m.find? e <;> rfl

theorem find?_erase (m : Bindings) :
    (m.erase d).find? e = if d = e then none else m.find? e := by
  simp only [find?, erase]
  induction m.entries with
  | nil => simp
  | cons x rest ih =>
    obtain ⟨c, w⟩ := x
    by_cases hcd : c = d
    · rw [List.filter_cons_of_neg (by simp [hcd]), ih, findIn_cons, hcd]
      by_cases hde : d = e <;> simp [hde]
    · rw [List.filter_cons_of_pos (by simp [hcd]), findIn_cons, findIn_cons, ih]
      by_cases hce : c = e
      · have hde : d ≠ e := fun hde => hcd (hce.trans hde.symm)
        simp [hce, hde]
      · simp [hce]

theorem find?_map (m : Bindings) (g : DeclId → Value → Value) :
    (m.map g).find? d = (m.find? d).map (g d) := by
  simp only [find?, map]
  induction m.entries with
  | nil => rfl
  | cons x rest ih =>
    obtain ⟨c, w⟩ := x
    simp only [List.map_cons, findIn_cons, ih]
    by_cases hcd : c = d <;> simp [hcd]

/-- A value for each declaration that either side binds. -/
def combineValues (f : Value → Value → Value) : Option Value → Option Value → Option Value
  | some v, some w => some (f v w)
  | none, w => w
  | v, none => v

theorem forall_combineValues {P : Value → Prop} {o o' : Option Value}
    (hf : ∀ a b, P a → P b → P (f a b)) (ho : ∀ v, o = some v → P v)
    (ho' : ∀ v, o' = some v → P v) : ∀ w, combineValues f o o' = some w → P w := by
  intro w h
  cases o with
  | none => exact ho' w h
  | some a =>
    cases o' with
    | none => exact ho w h
    | some b =>
      cases h
      exact hf a b (ho a rfl) (ho' b rfl)

theorem find?_foldl_insertWith (m : Bindings) (h : Ascending entries) :
    (entries.foldl (fun m e => m.insertWith f e.1 e.2) m).find? d =
      combineValues f (m.find? d) (findIn d entries) := by
  induction entries generalizing m with
  | nil => cases hm : m.find? d <;> simp [combineValues, hm]
  | cons x rest ih =>
    obtain ⟨c, w⟩ := x
    obtain ⟨hhead, htail⟩ := List.pairwise_cons.1 h
    rw [List.foldl_cons, ih _ htail, find?_insertWith, findIn_cons]
    by_cases hcd : c = d
    · subst hcd
      rw [if_pos rfl, if_pos rfl, findIn_eq_none hhead]
      cases m.find? c <;> rfl
    · rw [if_neg hcd, if_neg hcd]

theorem find?_unionWith (m other : Bindings) :
    (m.unionWith f other).find? d = combineValues f (m.find? d) (other.find? d) :=
  find?_foldl_insertWith m other.ascending

theorem eq_of_findIn_eq {xs ys : List (DeclId × Value)} (hx : Ascending xs) (hy : Ascending ys)
    (h : ∀ d, findIn d xs = findIn d ys) : xs = ys := by
  induction xs generalizing ys with
  | nil =>
    cases ys with
    | nil => rfl
    | cons y ys =>
      obtain ⟨e, w⟩ := y
      simpa [findIn_cons] using h e
  | cons x xs ih =>
    obtain ⟨d, v⟩ := x
    obtain ⟨hxhead, hxtail⟩ := List.pairwise_cons.1 hx
    cases ys with
    | nil => simpa [findIn_cons] using h d
    | cons y ys =>
      obtain ⟨e, w⟩ := y
      obtain ⟨hyhead, hytail⟩ := List.pairwise_cons.1 hy
      have hle : ¬ d.index < e.index := fun hlt => by
        have hnone : findIn d ((e, w) :: ys) = none := findIn_eq_none fun x hx => by
          rcases List.mem_cons.1 hx with rfl | hx
          · exact hlt
          · exact Nat.lt_trans hlt (hyhead x hx)
        have := h d
        simp [hnone, findIn_cons] at this
      have hge : ¬ e.index < d.index := fun hlt => by
        have hnone : findIn e ((d, v) :: xs) = none := findIn_eq_none fun x hx => by
          rcases List.mem_cons.1 hx with rfl | hx
          · exact hlt
          · exact Nat.lt_trans hlt (hxhead x hx)
        have := h e
        simp [hnone, findIn_cons] at this
      have hde : d = e := by
        by_cases hde : d = e
        · exact hde
        · have := index_ne_of_ne hde
          omega
      subst hde
      have hvw : v = w := by simpa [findIn_cons] using h d
      have htails : xs = ys := ih hxtail hytail fun c => by
        by_cases hc : d = c
        · rw [← hc, findIn_eq_none hxhead, findIn_eq_none hyhead]
        · simpa [findIn_cons, hc] using h c
      rw [hvw, htails]

theorem ext_find? {m other : Bindings} (h : ∀ d, m.find? d = other.find? d) : m = other := by
  obtain ⟨xs, hx⟩ := m
  obtain ⟨ys, hy⟩ := other
  have hxy : xs = ys := eq_of_findIn_eq hx hy h
  subst hxy
  rfl

end ValueFlow.Bindings
