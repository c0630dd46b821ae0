import ClassNav.Proofs.Files.Host

/-!
# Paths and their numbers

Whatever is done to a store, it stays `Store.Registered`: paths are kept by number and numbers by
path, with the same pairs on both sides, no number and no path stands twice, and all numbers are
below the next one to be given. After any edits the store of a host is moreover `Store.Numbered`:
whatever has a document is registered. So an edit of one path leaves the number and the document of
every other path as they are, along a run of any length (`Host.document?_run_append`).
-/

namespace ClassNav

theorem Path.same_iff {p q : Path} : p.same q = true ↔ p.components = q.components := beq_iff_eq

theorem Path.same_self (p : Path) : p.same p = true := same_iff.mpr rfl

/-! ## Numbers -/

namespace Store

/-- Each registered number stands for one path and was given before, each path stands for one
number, and numbers are found by path where paths are found by number. -/
structure Registered (s : Store) : Prop where
  below : ∀ e ∈ s.paths, e.1.index < s.nextId
  distinct : (s.paths.map (·.1)).Nodup
  apart : (s.paths.map (·.2.components)).Nodup
  mirrored : s.numbers = s.paths.map Prod.swap

/-- Moreover every document belongs to a registered number. -/
structure Numbered (s : Store) : Prop extends s.Registered where
  stored : ∀ f d, s.document? f = some d → ∃ p, (f, p) ∈ s.paths

variable {s : Store} {f g : FileId} {p q : Path}

theorem registered_empty : empty.Registered where
  below _ h := nomatch h
  distinct := .nil
  apart := .nil
  mirrored := rfl

theorem numbered_empty : empty.Numbered where
  toRegistered := registered_empty
  stored _ _ h := nomatch h

theorem Registered.path_unique (hs : s.Registered) (hp : (f, p) ∈ s.paths)
    (hq : (f, q) ∈ s.paths) : p = q :=
  congrArg Prod.snd (List.inj_on_of_nodup_map hs.distinct hp hq rfl)

/-- Paths with the same steps have the same number. -/
theorem Registered.number_unique (hs : s.Registered) (hp : (f, p) ∈ s.paths)
    (hq : (g, q) ∈ s.paths) (hsame : p.same q = true) : f = g :=
  congrArg Prod.fst (List.inj_on_of_nodup_map hs.apart hp hq (Path.same_iff.mp hsame))

theorem Registered.path?_eq_some_iff (hs : s.Registered) :
    s.path? f = some p ↔ (f, p) ∈ s.paths :=
  Keyed.lookup_eq_some_iff (List.pairwise_map.mp hs.distinct)

theorem Registered.mem_numbers_iff (hs : s.Registered) :
    (p, f) ∈ s.numbers ↔ (f, p) ∈ s.paths := by
  rw [hs.mirrored, List.mem_map]
  constructor
  · rintro ⟨⟨g, q⟩, hmem, heq⟩
    cases heq
    exact hmem
  · exact fun h => ⟨(f, p), h, rfl⟩

/-- A path has a number exactly if a path with the same steps stands for that number. -/
theorem Registered.find?_eq_some_iff (hs : s.Registered) :
    s.find? p = some f ↔ ∃ q, (f, q) ∈ s.paths ∧ q.same p = true := by
  have hfound : ∀ {e : Path × FileId}, s.numbers.find? (·.1.same p) = some e →
      (e.2, e.1) ∈ s.paths ∧ e.1.same p = true :=
    fun {e} h => ⟨hs.mem_numbers_iff.mp (List.mem_of_find?_eq_some h),
      List.find?_some (p := fun e : Path × FileId => e.1.same p) h⟩
  unfold find?
  constructor
  · intro h
    obtain ⟨e, he, rfl⟩ := Option.map_eq_some_iff.mp h
    exact ⟨e.1, hfound he⟩
  · rintro ⟨q, hmem, hsame⟩
    have hsome : (s.numbers.find? (·.1.same p)).isSome = true :=
      List.find?_isSome.mpr ⟨(q, f), hs.mem_numbers_iff.mpr hmem, hsame⟩
    obtain ⟨e, he⟩ := Option.isSome_iff_exists.mp hsome
    obtain ⟨hmem', hsame'⟩ := hfound he
    rw [Path.same_iff] at hsame hsame'
    rw [he, Option.map_some,
      hs.number_unique hmem' hmem (Path.same_iff.mpr (hsame'.trans hsame.symm))]

/-- A path keeps its number, or gets the next one. -/
theorem Registered.register_cases (hs : s.Registered) (p : Path) :
    (∃ f q, (f, q) ∈ s.paths ∧ q.same p = true ∧ s.register p = (f, s)) ∨
      (∀ f q, (f, q) ∈ s.paths → q.same p = false) ∧ s.register p = (⟨s.nextId⟩, { s with
        paths := s.paths ++ [(⟨s.nextId⟩, p)]
        numbers := s.numbers ++ [(p, ⟨s.nextId⟩)]
        nextId := s.nextId + 1 }) := by
  unfold register
  split
  · next f hf =>
    obtain ⟨q, hmem, hsame⟩ := hs.find?_eq_some_iff.mp hf
    exact .inl ⟨f, q, hmem, hsame, rfl⟩
  · next hnone =>
    refine .inr ⟨fun f q hmem => Bool.eq_false_iff.mpr fun hsame => ?_, rfl⟩
    rw [hs.find?_eq_some_iff.mpr ⟨q, hmem, hsame⟩] at hnone
    cases hnone

theorem register_of_none (h : s.find? p = none) : (s.register p).1 = ⟨s.nextId⟩ := by
  rw [register, h]

/-- A path that is registered already is not added again, and a new one gets the next number. -/
theorem mem_paths_register {e : FileId × Path} :
    e ∈ (s.register p).2.paths ↔ e ∈ s.paths ∨ s.find? p = none ∧ e = (⟨s.nextId⟩, p) := by
  unfold register
  cases s.find? p with
  | none => simp
  | some f => simp

/-- The next number was not given before, so no path loses its own. -/
theorem Registered.register (hs : s.Registered) (p : Path) : (s.register p).2.Registered := by
  rcases hs.register_cases p with ⟨f, q, _, _, h⟩ | ⟨hnew, h⟩
  · rw [h]
    exact hs
  · rw [h]
    refine ⟨?_, ?_, ?_, ?_⟩
    · intro e he
      rcases List.mem_append.mp he with he | he
      · exact Nat.lt_succ_of_lt (hs.below e he)
      · rw [List.mem_singleton.mp he]
        exact Nat.lt_succ_self _
    -- All numbers before are below the new one.
    · rw [List.map_append, List.nodup_append]
      refine ⟨hs.distinct, List.nodup_singleton _, ?_⟩
      rintro g hg _ hlast rfl
      obtain ⟨e, he, rfl⟩ := List.mem_map.mp hg
      have hlt := hs.below e he
      rw [List.mem_singleton.mp hlast] at hlt
      exact Nat.lt_irrefl _ hlt
    -- A path with the same steps would have been found.
    · rw [List.map_append, List.nodup_append]
      refine ⟨hs.apart, List.nodup_singleton _, ?_⟩
      rintro _ hcs _ hlast rfl
      obtain ⟨⟨g, q⟩, he, heq⟩ := List.mem_map.mp hcs
      have hsame : q.same p = true := Path.same_iff.mpr (heq.trans (List.mem_singleton.mp hlast))
      rw [hnew g q he] at hsame
      cases hsame
    · rw [hs.mirrored, List.map_append]
      rfl

/-- The number that a path is given is registered for it. -/
theorem Registered.mem_register (hs : s.Registered) (p : Path) :
    ∃ q, ((s.register p).1, q) ∈ (s.register p).2.paths ∧ q.same p = true := by
  rcases hs.register_cases p with ⟨f, q, hmem, hsame, h⟩ | ⟨_, h⟩
  · rw [h]
    exact ⟨q, hmem, hsame⟩
  · rw [h]
    exact ⟨p, List.mem_append_right _ (List.mem_singleton_self _), p.same_self⟩

theorem Numbered.register (hs : s.Numbered) (p : Path) : (s.register p).2.Numbered := by
  refine ⟨hs.toRegistered.register p, fun f d hd => ?_⟩
  rw [Host.document?_register] at hd
  obtain ⟨q, hq⟩ := hs.stored f d hd
  exact ⟨q, mem_paths_register.mpr (.inl hq)⟩

theorem Registered.setDocument (hs : s.Registered) (f : FileId) (d : Document) :
    (s.setDocument f d).Registered := ⟨hs.below, hs.distinct, hs.apart, hs.mirrored⟩

theorem Numbered.setDocument (hs : s.Numbered) (hf : (f, p) ∈ s.paths) (d : Document) :
    (s.setDocument f d).Numbered where
  toRegistered := hs.toRegistered.setDocument f d
  stored g d' hd := by
    rw [document?, Store.setDocument, FileMap.get?_insert] at hd
    split at hd
    · next hfg => exact ⟨p, hfg ▸ hf⟩
    · exact hs.stored g d' hd

/-- A number and its path are forgotten together, also if the path was spelled in another way. -/
theorem Registered.numbers_remove (hs : s.Registered) (f : FileId) :
    (s.remove f).numbers = (s.remove f).paths.map Prod.swap := by
  rw [Store.remove]
  cases hf : s.path? f with
  | none =>
    have hall : s.paths.filter (·.1 ≠ f) = s.paths := by
      refine List.filter_eq_self.mpr fun e he => decide_eq_true fun heq => ?_
      have hsome : s.path? f = some e.2 := hs.path?_eq_some_iff.mpr (heq ▸ he)
      rw [hf] at hsome
      cases hsome
    exact hall.symm ▸ hs.mirrored
  | some p =>
    have hp := hs.path?_eq_some_iff.mp hf
    show s.numbers.filter (fun e => !e.1.same p) = (s.paths.filter (·.1 ≠ f)).map Prod.swap
    rw [hs.mirrored, List.filter_map]
    refine congrArg _ (List.filter_congr fun ⟨g, q⟩ he => ?_)
    show (!q.same p) = decide (g ≠ f)
    by_cases heq : g = f
    · subst heq
      obtain rfl := hs.path_unique he hp
      simp [q.same_self]
    · have hsame : q.same p = false :=
        Bool.eq_false_iff.mpr fun hsame => heq (hs.number_unique he hp hsame)
      simp [heq, hsame]

theorem Registered.remove (hs : s.Registered) (f : FileId) : (s.remove f).Registered where
  below e he := hs.below e (List.mem_filter.mp he).1
  distinct := hs.distinct.sublist (List.filter_sublist.map _)
  apart := hs.apart.sublist (List.filter_sublist.map _)
  mirrored := hs.numbers_remove f

theorem Numbered.remove (hs : s.Numbered) (f : FileId) : (s.remove f).Numbered where
  toRegistered := hs.toRegistered.remove f
  stored g d hd := by
    rw [document?, Store.remove, FileMap.get?_erase] at hd
    split at hd
    · cases hd
    · next hfg =>
      obtain ⟨p, hp⟩ := hs.stored g d hd
      exact ⟨p, List.mem_filter.mpr ⟨hp, by simpa using Ne.symm hfg⟩⟩

/-- Another path has another number, and registering it changes nothing else. -/
theorem Registered.register_of_not_same (hs : s.Registered) (hf : (f, p) ∈ s.paths)
    (hq : p.same q = false) : (s.register q).1 ≠ f ∧ (f, p) ∈ (s.register q).2.paths := by
  have hkept := mem_paths_register (p := q).mpr (.inl hf)
  refine ⟨?_, hkept⟩
  rintro rfl
  obtain ⟨r, hr, hsame⟩ := hs.mem_register q
  rw [(hs.register q).path_unique hr hkept, hq] at hsame
  cases hsame

end Store

/-! ## Edits of other paths -/

def Edit.path? : Edit → Option Path
  | setText p _ => some p
  | setParsed p _ _ => some p
  | remove p => some p
  | refresh => none

/-- Whether an edit is about no path, or about another one than that of a file. -/
def Edit.Elsewhere (s : Store) (f : FileId) (e : Edit) : Prop :=
  ∀ p q, s.path? f = some p → e.path? = some q → p.same q = false

namespace Host

variable {h : Host} {f : FileId} {p : Path}

theorem numbered_apply (hs : h.store.Numbered) (e : Edit) : (e.apply h).store.Numbered := by
  have hset : ∀ p d, (h.setDocument p d).2.store.Numbered := by
    intro p d
    obtain ⟨q, hq, _⟩ := hs.mem_register p
    exact (hs.register p).setDocument hq d
  cases e with
  | setText p text => exact hset p _
  | setParsed p text source => exact hset p _
  | remove p => exact (hs.register p).remove _
  | refresh =>
    show h.refresh.store.Numbered
    rw [store_refresh]
    exact hs

/-- However a host is edited, its documents are those of registered numbers. -/
theorem numbered_run (es : List Edit) : (run es).store.Numbered := by
  suffices hall : ∀ h : Host, h.store.Numbered → (es.foldl Edit.apply h).store.Numbered from
    hall .empty Store.numbered_empty
  induction es with
  | nil => exact fun h hs => hs
  | cons e es ih => exact fun h hs => ih (e.apply h) (numbered_apply hs e)

/-- An edit of another path leaves the path and the document of a file as they are. -/
theorem document?_apply_of_not_same (hs : h.store.Numbered) (hf : (f, p) ∈ h.store.paths) {e : Edit}
    (he : ∀ q, e.path? = some q → p.same q = false) :
    (f, p) ∈ (e.apply h).store.paths ∧ (e.apply h).store.document? f = h.store.document? f := by
  have hset : ∀ q d, p.same q = false → (f, p) ∈ (h.setDocument q d).2.store.paths ∧
      (h.setDocument q d).2.store.document? f = h.store.document? f := by
    intro q d hq
    obtain ⟨hne, hmem⟩ := hs.register_of_not_same hf hq
    refine ⟨hmem, ?_⟩
    show ((h.store.register q).2.documents.insert (h.store.register q).1 d).get? f = _
    rw [FileMap.get?_insert, if_neg hne]
    exact document?_register h.store q f
  cases e with
  | setText q text => exact hset q _ (he q rfl)
  | setParsed q text source => exact hset q _ (he q rfl)
  | remove q =>
    obtain ⟨hne, hmem⟩ := hs.register_of_not_same hf (he q rfl)
    refine ⟨List.mem_filter.mpr ⟨hmem, decide_eq_true hne.symm⟩, ?_⟩
    show ((h.store.register q).2.documents.erase (h.store.register q).1).get? f = _
    rw [FileMap.get?_erase, if_neg hne]
    exact document?_register h.store q f
  | refresh =>
    show (f, p) ∈ h.refresh.store.paths ∧ h.refresh.store.document? f = _
    rw [store_refresh]
    exact ⟨hf, rfl⟩

/-- What is done to other paths does not reach the document of a file. -/
theorem document?_foldl_of_not_same (hs : h.store.Numbered) (hf : (f, p) ∈ h.store.paths)
    {es : List Edit} (hes : ∀ e ∈ es, ∀ q, e.path? = some q → p.same q = false) :
    (es.foldl Edit.apply h).store.document? f = h.store.document? f := by
  induction es generalizing h with
  | nil => rfl
  | cons e es ih =>
    obtain ⟨hmem, hdoc⟩ := document?_apply_of_not_same hs hf (hes e List.mem_cons_self)
    rw [List.foldl_cons,
      ih (numbered_apply hs e) hmem fun e he => hes e (List.mem_cons_of_mem _ he)]
    exact hdoc

/-- Edits of other paths, however many, leave the document of a file as it is. -/
theorem document?_run_append {es es' : List Edit} {d : Document}
    (hd : (run es).store.document? f = some d)
    (hes' : ∀ e ∈ es', e.Elsewhere (run es).store f) :
    (run (es ++ es')).store.document? f = some d := by
  have hs := numbered_run es
  obtain ⟨p, hp⟩ := hs.stored f d hd
  have hpath := hs.path?_eq_some_iff.mpr hp
  rw [run, List.foldl_append, ← hd]
  exact document?_foldl_of_not_same hs hp fun e he q hq => hes' e he p q hpath hq

end Host

end ClassNav
