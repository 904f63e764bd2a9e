import LayeredTree.Proofs.Releasing

set_option autoImplicit false

namespace LayeredTree.Disk

variable {d d' : Disk} {p q : Path} {source target other : Location}

/-- A directory was moved between places apart from each other. -/
structure Moved (d : Disk) (source target : Location) (d' : Disk) : Prop where
  here : d'.here = d.here
  apart : source.Disjoint target
  isDirectory : d.IsDirectory source
  /-- At most an empty directory gave way. -/
  vacant : d.get? target = none ∨ d.IsDirectory target ∧ d.IsBare target
  get? : ∀ other, d'.get? other =
    if target <+: other then d.get? (source ++ other.drop target.length)
    else if source <+: other then none else d.get? other

namespace Moved

theorem get?_target (h : d.Moved source target d') (names : Location) :
    d'.get? (target ++ names) = d.get? (source ++ names) := by
  rw [h.get?, if_pos (List.prefix_append _ _), List.drop_left]

theorem get?_source (h : d.Moved source target d') (names : Location) :
    d'.get? (source ++ names) = none := by
  rw [h.get?, if_neg (h.apart.symm.not_prefix_append names), if_pos (List.prefix_append _ _)]

theorem get?_off (h : d.Moved source target d') (off : ¬ source <+: other)
    (off' : ¬ target <+: other) : d'.get? other = d.get? other := by
  rw [h.get?, if_neg off', if_neg off]

theorem keeps (h : d.Moved source target d') (off : ¬ source <+: other)
    (isDir : d.IsDirectory other) : d'.IsDirectory other := by
  by_cases below : target <+: other
  · obtain ⟨names, rfl⟩ := below
    have here : names = [] := by
      by_contra ne
      rcases h.vacant with free | ⟨-, bare⟩
      · rw [IsDirectory, get?_append_of_none free] at isDir
        cases isDir
      · rw [IsDirectory, bare names ne] at isDir
        cases isDir
    rw [here, IsDirectory, h.get?_target, List.append_nil]
    exact h.isDirectory
  · rw [IsDirectory, h.get?_off off below]
    exact isDir

end Moved

private theorem moved_graft (isDir : d.IsDirectory source) (sne : source ≠ []) (tne : target ≠ [])
    (up : d.IsDirectory target.dropLast) (apart : ¬ source <+: target)
    (free : d.get? target = none) : d.Moved source target (d.graft source target) := by
  have apart' : ¬ target <+: source := by
    rintro ⟨rest, rfl⟩
    rw [IsDirectory, get?_append_of_none free] at isDir
    cases isDir
  exact ⟨here_graft _ _, ⟨apart, apart'⟩, isDir, .inl free, get?_graft sne tne apart free up⟩

private theorem moved_over (isDir : d.IsDirectory source) (sne : source ≠ []) (tne : target ≠ [])
    (up : d.IsDirectory target.dropLast) (apart : source.Disjoint target)
    (there : d.IsDirectory target) (bare : d.IsBare target) :
    d.Moved source target ((d.uproot target).graft source target) := by
  have off : ∀ names, ¬ target <+: source ++ names := apart.symm.not_prefix_append
  have free : (d.uproot target).get? target = none := by
    rw [get?_uproot tne, if_pos (List.prefix_refl _)]
  have up' : (d.uproot target).IsDirectory target.dropLast := by
    rw [IsDirectory, get?_uproot tne, if_neg]
    · exact up
    · intro le
      have shorter := le.length_le
      have := List.length_pos_iff.mpr tne
      rw [List.length_dropLast] at shorter
      omega
  refine ⟨by simp, apart, isDir, .inr ⟨there, bare⟩, fun other => ?_⟩
  rw [get?_graft sne tne apart.1 free up', get?_uproot tne, get?_uproot tne, if_neg (off _)]
  by_cases below : target <+: other
  · rw [if_pos below, if_pos below]
  · rw [if_neg below, if_neg below, if_neg below]

private theorem move_places {dir dir' : Location} {name name' : Name} {closed closed' : Bool}
    (hs : d.resolveLast p = .ok (.name dir name closed))
    (ht : d.resolveLast q = .ok (.name dir' name' closed'))
    (isDir : d.IsDirectory (dir ++ [name])) :
    (∃ d', d.Moved (dir ++ [name]) (dir' ++ [name']) d' ∧ move p q d = .ok () d') ∨
    (dir ++ [name] = dir' ++ [name'] ∧ move p q d = .ok () d) ∨
    ∃ fault, move p q d = .error fault d := by
  obtain ⟨-, -, -, -, -, -, -, up, -⟩ := of_resolveLast_name ht
  have up' : d.IsDirectory (dir' ++ [name']).dropLast := by rwa [List.dropLast_concat]
  unfold move moveAmong
  rw [bind_of_ok (ask_of_ok hs), bind_of_ok (ask_of_ok ht)]
  dsimp only
  rw [bind_of_ok (get_eq d), show d.get? _ = _ from isDir]
  dsimp only
  rw [if_neg (by simp [Node.isDirectory])]
  by_cases same : dir ++ [name] = dir' ++ [name']
  · rw [if_pos (.inl same)]
    exact .inr (.inl ⟨same, rfl⟩)
  rw [if_neg (by simp [same])]
  by_cases inside : dir ++ [name] <+: dir' ++ [name']
  · rw [if_pos (List.isPrefixOf_iff_prefix.mpr inside)]
    exact .inr (.inr ⟨_, rfl⟩)
  rw [if_neg (by rwa [List.isPrefixOf_iff_prefix]), bind_of_ok (get_eq d)]
  cases there : d.get? (dir' ++ [name']) with
  | none => exact .inl ⟨_, moved_graft isDir (by simp) (by simp) up' inside there, rfl⟩
  | some occupant =>
    dsimp only
    by_cases around : dir' ++ [name'] <+: dir ++ [name]
    · rw [if_pos (List.isPrefixOf_iff_prefix.mpr around)]
      exact .inr (.inr ⟨_, rfl⟩)
    rw [if_neg (by rwa [List.isPrefixOf_iff_prefix])]
    cases occupant with
    | directory =>
      rw [if_neg (by simp [Node.isDirectory]), if_neg (by simp [Node.isDirectory]),
        bind_of_ok (get_eq d)]
      by_cases bare : d.IsBare (dir' ++ [name'])
      · rw [if_neg (by simpa using isBare_iff.mpr bare)]
        exact .inl ⟨_, moved_over isDir (by simp) (by simp) up' ⟨inside, around⟩ there bare, rfl⟩
      · rw [if_pos (by simpa using fun e => bare (isBare_iff.mp (by simpa using e)))]
        exact .inr (.inr ⟨_, rfl⟩)
    | _ =>
      rw [if_pos (by simp [Node.isDirectory])]
      exact .inr (.inr ⟨_, rfl⟩)

/-- What the move of a directory comes to: it is moved, or it is in its place already, or the disk
is left alone. -/
theorem move_cases (p q : Path) (d : Disk)
    (dirs : ∀ loc, d.Seats p loc → ∀ node, d.get? loc = some node → node = .directory) :
    (∃ source target d', d.Seats p source ∧ d.Seats q target ∧ checkText q = .ok () ∧
      d.Moved source target d' ∧ move p q d = .ok () d') ∨
    (∃ loc, d.Seats p loc ∧ d.Seats q loc ∧ checkText q = .ok () ∧ d.IsDirectory loc ∧
      move p q d = .ok () d) ∨
    ∃ fault, move p q d = .error fault d := by
  cases hs : d.resolveLast p with
  | error fault => exact .inr (.inr ⟨fault, bind_of_error (ask_of_error hs)⟩)
  | ok step =>
    cases ht : d.resolveLast q with
    | error fault =>
      exact .inr (.inr ⟨fault, (bind_of_ok (ask_of_ok hs)).trans
        (bind_of_error (ask_of_error ht))⟩)
    | ok step' =>
      have busy : (∀ dir name closed dir' name' closed',
          ¬ (step = .name dir name closed ∧ step' = .name dir' name' closed')) →
            ∃ fault, move p q d = .error fault d := by
        intro off
        unfold move moveAmong
        rw [bind_of_ok (ask_of_ok hs), bind_of_ok (ask_of_ok ht)]
        split
        · exact absurd ⟨rfl, rfl⟩ (off _ _ _ _ _ _)
        · exact ⟨_, rfl⟩
      cases step with
      | name dir name closed =>
        cases step' with
        | name dir' name' closed' =>
          have seats := seats_of_resolveLast (.refl d) hs
          have seats' := seats_of_resolveLast (.refl d) ht
          cases found : d.get? (dir ++ [name]) with
          | none =>
            refine .inr (.inr ⟨.system .noEntry, ?_⟩)
            unfold move moveAmong
            rw [bind_of_ok (ask_of_ok hs), bind_of_ok (ask_of_ok ht)]
            dsimp only
            rw [bind_of_ok (get_eq d), found]
            rfl
          | some node =>
            have isDir : d.IsDirectory (dir ++ [name]) := by
              rw [IsDirectory, found, dirs _ seats _ found]
            obtain ⟨ne, zero, short, -⟩ := of_resolveLast_name ht
            have spelled := checkText_eq_ok ne zero short
            rcases move_places hs ht isDir with ⟨d', moved, run⟩ | ⟨same, run⟩ | failed
            · exact .inl ⟨_, _, d', seats, seats', spelled, moved, run⟩
            · exact .inr (.inl ⟨_, seats, same ▸ seats', spelled, isDir, run⟩)
            · exact .inr (.inr failed)
        | _ => exact .inr (.inr (busy (by rintro _ _ _ _ _ _ ⟨-, ⟨⟩⟩)))
      | _ => exact .inr (.inr (busy (by rintro _ _ _ _ _ _ ⟨⟨⟩, -⟩)))

end LayeredTree.Disk
