import CheviotBoot.Lib.Chain

namespace CheviotBoot.Lib

variable {α : Type} {next prev : α → Option α} {a b l : List α} {e x : α}

/-- The pointers of some entries lead once round through a list. -/
def Cyclic (next : α → Option α) (l : List α) : Prop := Leads next l.head? l l.head?

/-- Where a round begins does not matter. -/
theorem Cyclic.swap (h : Cyclic next (a ++ b)) : Cyclic next (b ++ a) := by
  obtain ⟨r, ha, hb⟩ := leads_append.mp h
  cases b with
  | nil => rwa [List.append_nil] at h
  | cons y b =>
    have hr : r = some y := hb.start
    rw [hr] at ha hb
    exact leads_append.mpr ⟨(a ++ y :: b).head?, hb, ha⟩

/-- The pointer of an entry, in a round that begins with it. -/
theorem Cyclic.next_head (h : Cyclic next (e :: l)) : next e = l.head?.or (some e) := h.2.start

variable [DecidableEq α]

/-- An entry is put in behind all the others. -/
theorem Cyclic.insert (h : Cyclic next l) (hn : l.Nodup) (he : e ∉ l) (hlast : l.getLast? = some x) :
    Cyclic (Function.update (Function.update next e l.head?) x (some e)) (l ++ [e]) := by
  obtain ⟨a, rfl⟩ := List.getLast?_eq_some_iff.mp hlast
  have hx : x ∉ a := fun hx => (List.nodup_append'.mp hn).2.2 hx (List.mem_singleton.mpr rfl)
  have hex : e ≠ x := fun hex => he (hex ▸ List.mem_append_right a (List.mem_singleton.mpr rfl))
  have hhead : (a ++ [x] ++ [e]).head? = (a ++ [x]).head? := by
    cases a <;> rfl
  rw [Cyclic, hhead]
  refine leads_append.mpr ⟨some e, (h.update_other he _).update_last hx _, rfl, ?_⟩
  rw [Function.update_of_ne hex]
  exact Function.update_self e _ next

/-- The last entry is taken out. -/
theorem Cyclic.remove (h : Cyclic next (l ++ [e])) (hn : l.Nodup) (hlast : l.getLast? = some x) :
    Cyclic (Function.update next x (next e)) l := by
  obtain ⟨r, hl, -, he⟩ := leads_append.mp h
  obtain ⟨a, rfl⟩ := List.getLast?_eq_some_iff.mp hlast
  have hx : x ∉ a := fun hx => (List.nodup_append'.mp hn).2.2 hx (List.mem_singleton.mpr rfl)
  have hhead : (a ++ [x] ++ [e]).head? = (a ++ [x]).head? := by
    cases a <;> rfl
  have he' : next e = (a ++ [x]).head? := Eq.trans he hhead
  rw [hhead] at hl
  rw [he']
  exact hl.update_last hx _

/-- Two pointers in each entry lead round in both directions. -/
structure LinkedRing (next prev : α → Option α) (l : List α) : Prop where
  nodup : l.Nodup
  ahead : Cyclic next l
  back : Cyclic prev l.reverse

namespace LinkedRing

omit [DecidableEq α] in
theorem swap (h : LinkedRing next prev (a ++ b)) : LinkedRing next prev (b ++ a) := by
  refine ⟨List.nodup_append_comm.mp h.nodup, h.ahead.swap, ?_⟩
  have hback := h.back
  rw [List.reverse_append] at hback ⊢
  exact hback.swap

omit [DecidableEq α] in
theorem flip (h : LinkedRing next prev l) : LinkedRing prev next l.reverse :=
  ⟨List.nodup_reverse.mpr h.nodup, h.back, (List.reverse_reverse l).symm ▸ h.ahead⟩

omit [DecidableEq α] in
/-- Where the pointers of the first entry lead. -/
theorem first (h : LinkedRing next prev (e :: l)) :
    next e = l.head?.or (some e) ∧ prev e = l.getLast?.or (some e) := by
  have hflip := h.flip
  rw [List.reverse_cons] at hflip
  have hback : LinkedRing prev next (e :: l.reverse) := hflip.swap
  have hprev := hback.ahead.next_head
  rw [List.head?_reverse] at hprev
  exact ⟨h.ahead.next_head, hprev⟩

omit [DecidableEq α] in
/-- The pointers between the last entry and the first. -/
theorem ends {f t : α} (h : LinkedRing next prev l) (hfirst : l.head? = some f) (hlast : l.getLast? = some t) :
    next t = some f ∧ prev f = some t := by
  have hprev : ∀ {next prev : α → Option α} {l : List α} {f t : α}, LinkedRing next prev l →
      l.head? = some f → l.getLast? = some t → prev f = some t := by
    intro next prev l f t h hfirst hlast
    obtain ⟨l, rfl⟩ := List.head?_eq_some_iff.mp hfirst
    rw [h.first.2, ← hlast, List.getLast?_cons]
    cases l.getLast? <;> rfl
  refine ⟨hprev h.flip ?_ ?_, hprev h hfirst hlast⟩
  · rw [List.head?_reverse, hlast]
  · rw [List.getLast?_reverse, hfirst]

theorem single (next prev : α → Option α) (e : α) :
    LinkedRing (Function.update next e (some e)) (Function.update prev e (some e)) [e] :=
  ⟨List.nodup_singleton e, ⟨rfl, Function.update_self e _ next⟩, ⟨rfl, Function.update_self e _ prev⟩⟩

omit [DecidableEq α] in
/-- What an entry points to points back at it. -/
theorem inverse (h : LinkedRing next prev l) (hx : x ∈ l) : ∃ y ∈ l, next x = some y ∧ prev y = some x := by
  obtain ⟨a, b, rfl⟩ := List.append_of_mem hx
  have hround : LinkedRing next prev (x :: (b ++ a)) := h.swap
  cases hba : b ++ a with
  | nil =>
    rw [hba] at hround
    exact ⟨x, hx, hround.first⟩
  | cons y c =>
    rw [hba] at hround
    have hy : y ∈ a ++ x :: b := by
      have hmem : y ∈ b ++ a := hba ▸ List.mem_cons_self
      rcases List.mem_append.mp hmem with hb | ha
      · exact List.mem_append_right a (List.mem_cons_of_mem x hb)
      · exact List.mem_append_left _ ha
    have hback : LinkedRing next prev (y :: (c ++ [x])) := LinkedRing.swap (a := [x]) hround
    have hprev := hback.first.2
    rw [List.getLast?_concat] at hprev
    exact ⟨y, hy, hround.first.1, hprev⟩

/-- An entry between the last and the first of a ring. -/
theorem insert {f t : α} (h : LinkedRing next prev l) (he : e ∉ l) (hfirst : l.head? = some f)
    (hlast : l.getLast? = some t) :
    LinkedRing (Function.update (Function.update next e (some f)) t (some e))
      (Function.update (Function.update prev e (some t)) f (some e)) (l ++ [e]) := by
  have hn : (l ++ [e]).Nodup :=
    List.nodup_append'.mpr ⟨h.nodup, List.nodup_singleton e, List.disjoint_singleton.mpr he⟩
  have hrevFirst : l.reverse.head? = some t := by rw [List.head?_reverse, hlast]
  have hrevLast : l.reverse.getLast? = some f := by rw [List.getLast?_reverse, hfirst]
  refine ⟨hn, ?_, ?_⟩
  · rw [← hfirst]
    exact h.ahead.insert h.nodup he hlast
  · rw [List.reverse_append, ← hrevFirst]
    exact (h.back.insert (List.nodup_reverse.mpr h.nodup) (fun hm => he (List.mem_reverse.mp hm)) hrevLast).swap

/-- The first entry of a ring of several is taken out. -/
theorem remove {f t : α} (h : LinkedRing next prev (e :: l)) (hfirst : l.head? = some f)
    (hlast : l.getLast? = some t) :
    LinkedRing (Function.update next t (next e)) (Function.update prev f (prev e)) l := by
  have hn : l.Nodup := (List.nodup_cons.mp h.nodup).2
  have hrevLast : l.reverse.getLast? = some f := by rw [List.getLast?_reverse, hfirst]
  have hahead : Cyclic next (l ++ [e]) := Cyclic.swap (a := [e]) h.ahead
  have hback := h.back
  rw [List.reverse_cons] at hback
  exact ⟨hn, hahead.remove hn hlast, hback.remove (List.nodup_reverse.mpr hn) hrevLast⟩

/-- An entry and its neighbours, and the ring of the others. -/
theorem unlink (h : LinkedRing next prev (e :: l)) (hl : l ≠ []) :
    ∃ f t, l.head? = some f ∧ (next e = some f ∧ prev e = some t) ∧ (e ≠ f ∧ e ≠ t) ∧
      LinkedRing (Function.update next t (next e)) (Function.update prev f (prev e)) l := by
  obtain ⟨f, hfirst⟩ := Option.isSome_iff_exists.mp (List.isSome_head?.mpr hl)
  obtain ⟨t, hlast⟩ := Option.isSome_iff_exists.mp (List.getLast?_isSome.mpr hl)
  obtain ⟨hnext, hprev⟩ := h.first
  rw [hfirst, Option.some_or] at hnext
  rw [hlast, Option.some_or] at hprev
  have hne := (List.nodup_cons.mp h.nodup).1
  refine ⟨f, t, hfirst, ⟨hnext, hprev⟩, ⟨?_, ?_⟩, h.remove hfirst hlast⟩
  · rintro rfl
    exact hne (List.mem_of_mem_head? hfirst)
  · rintro rfl
    exact hne (List.mem_of_getLast? hlast)

end LinkedRing

end CheviotBoot.Lib
