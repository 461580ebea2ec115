import WordMachine.Linking.Combinators
import WordMachine.Proofs.Linking.Relocation

/-!
# Linking in a row

Three programs can be linked in two ways: the first two and then the third, or the last two
and then the first before them.  The one way changes the operands of the last program once and
those of the others twice, the other way the operands of the last program twice and those of
the first once.  What a pair becomes in two changes is what it becomes in one, and where
one of the two changes is refused, so is the one.  So both ways succeed for the same
programs, and with the same result.

## Main definitions

* `Link.Changed` — sources whose operands were changed one by one
* `Link.join` — the sources of programs that are linked without positions

## Main results

* `Link.link_eq_ok_iff` — linking without positions, as a relation between sources
* `Link.pinned_pinned_iff`, `Link.moved_pinned_iff`, `Link.moved_moved_iff` — two changes of a
  pair are one
* `linking_is_associative` — both ways to link three programs
-/

namespace WordMachine

/-! ## Changes one after the other -/

/-- Lists that are related through a third one are related item by item. -/
theorem forall₂_comp_iff {α β γ : Type} {R : α → β → Prop} {S : β → γ → Prop} {T : α → γ → Prop}
    (h : ∀ x z, (∃ y, R x y ∧ S y z) ↔ T x z) {xs : List α} {zs : List γ} :
    (∃ ys, List.Forall₂ R xs ys ∧ List.Forall₂ S ys zs) ↔ List.Forall₂ T xs zs := by
  constructor
  · rintro ⟨ys, hfirst, hsecond⟩
    induction hfirst generalizing zs with
    | nil =>
        cases hsecond
        exact .nil
    | cons hhead _ ih =>
        obtain ⟨z, zs', hz, hzs, rfl⟩ := List.forall₂_cons_left_iff.mp hsecond
        exact .cons ((h _ _).mp ⟨_, hhead, hz⟩) (ih hzs)
  · intro hboth
    induction hboth with
    | nil => exact ⟨[], .nil, .nil⟩
    | cons hhead _ ih =>
        obtain ⟨y, hy, hyz⟩ := (h _ _).mpr hhead
        obtain ⟨ys, hys, hyzs⟩ := ih
        exact ⟨y :: ys, .cons hy hys, .cons hyz hyzs⟩

/-- The source that has the given pairs. -/
def ofPairs (code : List (UInt8 × UInt8)) : Source := code.flatMap fun pair => [pair.1, pair.2]

private theorem isWhole_ofPairs (code : List (UInt8 × UInt8)) : isWhole (ofPairs code) := by
  induction code with
  | nil => rfl
  | cons head rest ih =>
      change isWhole (head.1 :: head.2 :: ofPairs rest)
      rwa [isWhole_cons_cons]

@[simp] theorem pairs_ofPairs (code : List (UInt8 × UInt8)) : pairs (ofPairs code) = code := by
  induction code with
  | nil => rfl
  | cons head rest ih =>
      show head :: pairs (ofPairs rest) = head :: rest
      rw [ih]

/-- A whole source consists of its pairs. -/
theorem ofPairs_pairs {code : Source} (h : isWhole code) : ofPairs (pairs code) = code := by
  fun_induction pairs code with
  | case1 opcode operand rest ih =>
      rw [isWhole_cons_cons] at h
      show opcode :: operand :: ofPairs (pairs rest) = _
      rw [ih h]
  | case2 source hshort =>
      rcases source with _ | ⟨a, _ | ⟨b, rest⟩⟩
      · rfl
      · simp [isWhole] at h
      · exact absurd rfl (hshort a b rest)

namespace Link

variable {f g h : UInt8 → UInt8 → Except LinkError UInt8} {code out : Source}

private theorem mapPairs_ofPairs {before after : List (UInt8 × UInt8)}
    (hpairs : List.Forall₂ (fun pair pair' => pair'.1 = pair.1 ∧ f pair.1 pair.2 = .ok pair'.2)
      before after) : mapPairs f before = .ok (ofPairs after) := by
  induction hpairs with
  | nil => rfl
  | @cons pair pair' _ after hhead _ ih =>
      obtain ⟨hopcode, hoperand⟩ := hhead
      simp only [mapPairs, hoperand, ih]
      rw [← hopcode]
      rfl

/-- A source is changed with success exactly into its copy. -/
theorem mapSource_eq_ok_iff {index : Nat} :
    mapSource f index code = .ok out ↔ Copied f code out := by
  constructor
  · exact copied_of_mapSource
  · intro hcopied
    rw [mapSource, if_pos hcopied.whole, mapPairs_ofPairs hcopied.pairs,
      ofPairs_pairs hcopied.whole']

private theorem copied_congr (hfg : ∀ opcode x y, f opcode x = .ok y ↔ g opcode x = .ok y) :
    Copied f code out ↔ Copied g code out := by
  constructor
  · intro hcopied
    exact ⟨hcopied.whole, hcopied.whole', hcopied.pairs.imp
      fun _ _ hpair => ⟨hpair.1, (hfg _ _ _).mp hpair.2⟩⟩
  · intro hcopied
    exact ⟨hcopied.whole, hcopied.whole', hcopied.pairs.imp
      fun _ _ hpair => ⟨hpair.1, (hfg _ _ _).mpr hpair.2⟩⟩

/-- Two changes of operands that are one change for every pair are one for code. -/
theorem copied_comp_iff
    (hcomp : ∀ opcode x z, (∃ y, f opcode x = .ok y ∧ g opcode y = .ok z) ↔ h opcode x = .ok z) :
    (∃ mid, Copied f code mid ∧ Copied g mid out) ↔ Copied h code out := by
  have hpair : ∀ before after : UInt8 × UInt8,
      (∃ mid : UInt8 × UInt8, (mid.1 = before.1 ∧ f before.1 before.2 = .ok mid.2) ∧
        after.1 = mid.1 ∧ g mid.1 mid.2 = .ok after.2)
      ↔ after.1 = before.1 ∧ h before.1 before.2 = .ok after.2 := by
    intro before after
    rw [← hcomp]
    constructor
    · rintro ⟨mid, ⟨hmid, hfirst⟩, hafter, hsecond⟩
      rw [hmid] at hafter hsecond
      exact ⟨hafter, mid.2, hfirst, hsecond⟩
    · rintro ⟨hafter, y, hfirst, hsecond⟩
      exact ⟨(before.1, y), ⟨rfl, hfirst⟩, hafter, hsecond⟩
  constructor
  · rintro ⟨mid, hfirst, hsecond⟩
    exact ⟨hfirst.whole, hsecond.whole',
      (forall₂_comp_iff hpair).mp ⟨pairs mid, hfirst.pairs, hsecond.pairs⟩⟩
  · intro hboth
    obtain ⟨mid, hfirst, hsecond⟩ := (forall₂_comp_iff hpair).mpr hboth.pairs
    refine ⟨ofPairs mid, ⟨hboth.whole, isWhole_ofPairs mid, ?_⟩,
      ⟨isWhole_ofPairs mid, hboth.whole', ?_⟩⟩
    · rwa [pairs_ofPairs]
    · rwa [pairs_ofPairs]

/-- Code in a row is changed part by part. -/
theorem copied_append_iff {first second : Source} (hwhole : isWhole first) :
    Copied f (first ++ second) out
      ↔ ∃ first' second', Copied f first first' ∧ Copied f second second' ∧
        out = first' ++ second' := by
  constructor
  · intro hcopied
    have hpairs := hcopied.pairs
    rw [pairs_append hwhole] at hpairs
    have hsplit := (List.take_append_drop (pairs first).length (pairs out)).symm
    have hfirst := List.forall₂_take (pairs first).length hpairs
    have hsecond := List.forall₂_drop (pairs first).length hpairs
    rw [List.take_left] at hfirst
    rw [List.drop_left] at hsecond
    refine ⟨ofPairs ((pairs out).take (pairs first).length),
      ofPairs ((pairs out).drop (pairs first).length),
      ⟨hwhole, isWhole_ofPairs _, by rwa [pairs_ofPairs]⟩,
      ⟨?_, isWhole_ofPairs _, by rwa [pairs_ofPairs]⟩, ?_⟩
    · have hboth := hcopied.whole
      simp only [isWhole, List.length_append, beq_iff_eq] at hwhole hboth ⊢
      omega
    · rw [ofPairs, ofPairs, ← List.flatMap_append, List.take_append_drop]
      exact (ofPairs_pairs hcopied.whole').symm
  · rintro ⟨first', second', hfirst, hsecond, rfl⟩
    refine ⟨isWhole_append hwhole hsecond.whole, isWhole_append hfirst.whole' hsecond.whole', ?_⟩
    rw [pairs_append hwhole, pairs_append hfirst.whole']
    exact List.rel_append hfirst.pairs hsecond.pairs

/-- The second sources are the first with their operands changed. -/
def Changed (f : UInt8 → UInt8 → Except LinkError UInt8) : List Source → List Source → Prop :=
  List.Forall₂ (Copied f)

variable {sources outs : List Source}

private theorem Changed.ne_nil (hchanged : Changed f sources outs) : sources ≠ [] ↔ outs ≠ [] := by
  rw [← List.length_pos_iff, ← List.length_pos_iff, hchanged.length_eq]

/-- Sources are changed with success exactly into their copies, if the index of a source only
matters for errors. -/
theorem mapSources_eq_ok_iff {F : Nat → UInt8 → UInt8 → Except LinkError UInt8}
    (hF : ∀ i opcode x y, F i opcode x = .ok y ↔ f opcode x = .ok y) {index : Nat} :
    mapSources F index sources = .ok outs ↔ Changed f sources outs := by
  induction sources generalizing index outs with
  | nil =>
      constructor
      · intro hmap
        cases hmap
        exact .nil
      · intro hchanged
        cases hchanged
        rfl
  | cons code rest ih =>
      constructor
      · intro hmap
        obtain ⟨out, hout, hmap⟩ := except_bind_eq_ok hmap
        obtain ⟨outs, houts, hmap⟩ := except_bind_eq_ok hmap
        cases hmap
        exact .cons ((copied_congr (hF index)).mp (mapSource_eq_ok_iff.mp hout)) (ih.mp houts)
      · intro hchanged
        obtain ⟨out, outs, hout, houts, rfl⟩ := List.forall₂_cons_left_iff.mp hchanged
        have hhead : mapSource (F index) index code = .ok out :=
          mapSource_eq_ok_iff.mpr ((copied_congr (hF index)).mpr hout)
        have hrest : mapSources F (index + 1) rest = .ok outs := ih.mpr houts
        simp only [mapSources, hhead, hrest]
        rfl

private theorem Changed.comp_iff
    (hcomp : ∀ opcode x z, (∃ y, f opcode x = .ok y ∧ g opcode y = .ok z) ↔ h opcode x = .ok z) :
    (∃ mids, Changed f sources mids ∧ Changed g mids outs) ↔ Changed h sources outs :=
  forall₂_comp_iff fun _ _ => copied_comp_iff hcomp

/-! ## Operands that are changed twice -/

/-- Pinning never fails: it writes the read that an operand means as a byte. -/
theorem pinArgument_eq (x : UInt8) (pool : Nat) :
    pinArgument x pool = .ok (Fetch.resolve x pool).byte := by
  have hwithin := Fetch.within_resolve x pool
  rw [pinArgument]
  cases hresolve : Fetch.resolve x pool with
  | argument i =>
      rw [hresolve] at hwithin
      dsimp only
      rw [Fetch.encode_of_within hwithin]
      rfl
  | constant i =>
      obtain ⟨rfl, -, -⟩ := Fetch.resolve_eq_constant_iff.mp hresolve
      rfl

/-- The read of a constant behind others, if an operand can express it. -/
def raised? (base : Nat) : Fetch → Option Fetch
  | .constant i =>
    if i.toNat + base ≤ maxConstantIndex then some (.constant (.ofNat (i.toNat + base))) else none
  | .argument i => some (.argument i)

/-- A read is raised past two pools at once or past one after the other. -/
theorem raised?_bind_raised? (first second : Nat) (read : Fetch) :
    (raised? second read).bind (raised? first) = raised? (first + second) read := by
  cases read with
  | argument i => rfl
  | constant i =>
      simp only [raised?]
      by_cases hsecond : i.toNat + second ≤ maxConstantIndex
      · have hbyte : (UInt8.ofNat (i.toNat + second)).toNat = i.toNat + second := by
          rw [maxConstantIndex] at hsecond
          rw [UInt8.toNat_ofNat']
          omega
        rw [if_pos hsecond, Option.bind_some, raised?, hbyte, Nat.add_assoc,
          Nat.add_comm second first]
      · rw [if_neg hsecond, Option.bind_none, if_neg (by omega)]

private theorem within_of_raised? {base pool : Nat} {read read' : Fetch}
    (h : raised? base read = some read') (hread : read.Within pool) :
    read'.Within (base + pool) := by
  cases read with
  | argument i =>
      cases h
      exact hread
  | constant i =>
      simp only [raised?] at h
      split at h
      · next hfits =>
          cases h
          obtain ⟨-, hlt⟩ := hread
          rw [maxConstantIndex] at hfits
          simp only [Fetch.Within, UInt8.toNat_ofNat', maxConstantIndex]
          omega
      · cases h

/-- Moving a `CONSTANT` raises the read that its operand means. -/
theorem Move.constant_eq_ok_iff {move : Move} {source : Nat} {x y : UInt8} :
    move.constant source x = .ok y
      ↔ (raised? move.basePool (Fetch.resolve x move.pool)).map Fetch.byte = some y := by
  rw [Move.constant, pinArgument_eq]
  cases Fetch.resolve x move.pool with
  | argument i => simp [raised?]
  | constant i =>
      simp only [raised?]
      by_cases hfits : i.toNat + move.basePool ≤ maxConstantIndex
      · rw [if_neg (Nat.not_lt.mpr hfits), if_pos hfits]
        simp [Fetch.byte]
      · rw [if_pos (Nat.not_le.mp hfits), if_neg hfits]
        simp

/-- Moving a `ZIPMAP` fails only if the moved source is too large for the operand. -/
theorem Move.zip_eq_ok_iff {move : Move} {source : Nat} {x y : UInt8} :
    move.zip source x = .ok y
      ↔ move.source (Zip.decode x).source.toNat ≤ maxZipSource ∧
        ({ Zip.decode x with
          source := .ofNat (move.source (Zip.decode x).source.toNat) } : Zip).encode = .ok y := by
  rw [Move.zip]
  dsimp only
  by_cases hfits : maxZipSource < move.source (Zip.decode x).source.toNat
  · rw [if_pos hfits]
    simp [Nat.not_le.mpr hfits]
  · rw [if_neg hfits, mapError_eq_ok_iff]
    simp [Nat.not_lt.mp hfits]

/-- Two moves of a `ZIPMAP` are one that leads to the same source, if the first of them goes
no further. -/
theorem Move.zip_comp_iff {first second both : Move} {x z : UInt8}
    (hsource : ∀ target, second.source (first.source target) = both.source target)
    (hle : ∀ target, first.source target ≤ both.source target) :
    (∃ y, first.zip 0 x = .ok y ∧ second.zip 0 y = .ok z) ↔ both.zip 0 x = .ok z := by
  -- the operand between the two moves differs from the first one in its source only
  have hbetween : ∀ {y : UInt8}, first.zip 0 x = .ok y →
      (second.zip 0 y = .ok z ↔ both.zip 0 x = .ok z) := by
    intro y hy
    have htarget := first.source_of_zip hy
    have hfields := (first.zip_eq_ok hy).2.1
    rw [zip_eq_ok_iff, zip_eq_ok_iff, htarget, hsource, hfields]
  constructor
  · rintro ⟨y, hy, hz⟩
    exact (hbetween hy).mp hz
  · intro hz
    have hfits := (zip_eq_ok_iff.mp hz).1
    have hfirst := Nat.le_trans (hle _) hfits
    have hbyte : (UInt8.ofNat (first.source (Zip.decode x).source.toNat)).toNat
        ≤ maxZipSource := by
      rw [maxZipSource] at hfirst ⊢
      rw [UInt8.toNat_ofNat']
      omega
    obtain ⟨y, hencode⟩ := Zip.encode_of_le hbyte
    have hy : first.zip 0 x = .ok y := zip_eq_ok_iff.mpr ⟨hfirst, hencode⟩
    exact ⟨y, hy, (hbetween hy).mpr hz⟩

/-- The source that a pair belongs to matters for errors only. -/
theorem Move.pair_eq_ok_iff {move : Move} (source : Nat) {opcode x y : UInt8} :
    move.pair source opcode x = .ok y ↔ move.pair 0 opcode x = .ok y := by
  rw [Move.pair, Move.pair]
  split
  · rw [Move.constant_eq_ok_iff, Move.constant_eq_ok_iff]
  · split
    · rw [Move.zip_eq_ok_iff, Move.zip_eq_ok_iff]
    · rfl

/-- What was pinned against one pool is not changed by pinning it against a longer one. -/
theorem pinned_pinned_iff {pool : Nat} (more : Nat) (opcode x z : UInt8) :
    (∃ y, pinPair pool opcode x = .ok y ∧ pinPair (pool + more) opcode y = .ok z)
      ↔ pinPair pool opcode x = .ok z := by
  simp only [pinPair]
  by_cases hconstant : opcode = Instruction.constant.opcode
  · have hagain : Fetch.resolve (Fetch.resolve x pool).byte (pool + more)
        = Fetch.resolve x pool :=
      Fetch.resolve_byte ((Fetch.within_resolve x pool).mono (Nat.le_add_right _ _))
    simp [hconstant, pinArgument_eq, hagain]
  · simp [hconstant]

section

variable {basePool pool baseSources sources : Nat}

/-- The move of a program behind another, without positions. -/
def moveBehind (basePool pool baseSources : Nat) : Move where
  basePool := basePool
  pool := pool
  spliceAt := 0
  merged := 1
  baseSources := baseSources

private theorem source_moveBehind (basePool pool baseSources target : Nat) :
    (moveBehind basePool pool baseSources).source target
      = if target = 0 then 0 else target + baseSources - 1 := by
  by_cases htarget : target = 0
  · rw [if_pos htarget, htarget]
    rfl
  · rw [if_neg htarget]
    exact if_neg (by show ¬ target < 1; omega)

/-- A pair that was moved is not changed by pinning it against the pools together. -/
theorem moved_pinned_iff (opcode x z : UInt8) :
    (∃ y, (moveBehind basePool pool baseSources).pair 0 opcode x = .ok y ∧
        pinPair (basePool + pool) opcode y = .ok z)
      ↔ (moveBehind basePool pool baseSources).pair 0 opcode x = .ok z := by
  simp only [pinPair, Move.pair]
  by_cases hconstant : opcode = Instruction.constant.opcode
  · simp only [if_pos hconstant, Move.constant_eq_ok_iff, pinArgument_eq, moveBehind]
    cases hraised : raised? basePool (Fetch.resolve x pool) with
    | none => simp
    | some read =>
        have hagain : Fetch.resolve read.byte (basePool + pool) = read :=
          Fetch.resolve_byte (within_of_raised? hraised (Fetch.within_resolve x pool))
        simp [hagain]
  · simp [hconstant]

/-- A pair may be pinned before it is moved, as part of a program with more constants. -/
theorem pinned_moved_iff (more : Nat) (opcode x z : UInt8) :
    (∃ y, pinPair pool opcode x = .ok y ∧
        (moveBehind basePool (pool + more) baseSources).pair 0 opcode y = .ok z)
      ↔ (moveBehind basePool pool baseSources).pair 0 opcode x = .ok z := by
  simp only [pinPair, Move.pair]
  by_cases hconstant : opcode = Instruction.constant.opcode
  · have hagain : Fetch.resolve (Fetch.resolve x pool).byte (pool + more)
        = Fetch.resolve x pool :=
      Fetch.resolve_byte ((Fetch.within_resolve x pool).mono (Nat.le_add_right _ _))
    simp [hconstant, Move.constant_eq_ok_iff, pinArgument_eq, moveBehind, hagain]
  · by_cases hzipmap : opcode = Instruction.zipmap.opcode
    · simp [hconstant, if_pos hzipmap, Move.zip_eq_ok_iff, source_moveBehind]
    · simp [hconstant, hzipmap]

/-- A pair may be moved behind one program and then with it behind another, or behind both at
once. -/
theorem moved_moved_iff (hbase : 0 < baseSources) (hsources : 0 < sources) {last : Nat}
    (opcode x z : UInt8) :
    (∃ y, (moveBehind pool last sources).pair 0 opcode x = .ok y ∧
        (moveBehind basePool (pool + last) baseSources).pair 0 opcode y = .ok z)
      ↔ (moveBehind (basePool + pool) last (baseSources + sources - 1)).pair 0 opcode x
        = .ok z := by
  simp only [Move.pair]
  by_cases hconstant : opcode = Instruction.constant.opcode
  · simp only [if_pos hconstant, Move.constant_eq_ok_iff, moveBehind, ← raised?_bind_raised?]
    cases hraised : raised? pool (Fetch.resolve x last) with
    | none => simp
    | some read =>
        have hagain : Fetch.resolve read.byte (pool + last) = read :=
          Fetch.resolve_byte (within_of_raised? hraised (Fetch.within_resolve x last))
        simp [hagain]
  · by_cases hzipmap : opcode = Instruction.zipmap.opcode
    · simp only [if_neg hconstant, if_pos hzipmap]
      refine Move.zip_comp_iff (fun target => ?_) fun target => ?_
      · simp only [source_moveBehind]
        split
        · rfl
        · rw [if_neg (by omega)]
          omega
      · simp only [source_moveBehind]
        split
        · exact Nat.le_refl 0
        · omega
    · simp [hconstant, hzipmap]

end

/-! ## Sources of linked programs -/

/-- The sources of linked programs: the first sources become one, and the others follow. -/
def join : List Source → List Source → List Source
  | first :: rest, second :: more => (first ++ second) :: (rest ++ more)
  | sources, more => sources ++ more

private theorem join_assoc {xs ys zs : List Source} (hx : xs ≠ []) (hy : ys ≠ []) (hz : zs ≠ []) :
    join (join xs ys) zs = join xs (join ys zs) := by
  match xs, ys, zs with
  | [], _, _ => exact absurd rfl hx
  | _, [], _ => exact absurd rfl hy
  | _, _, [] => exact absurd rfl hz
  | x :: xs, y :: ys, z :: zs => simp only [join, List.append_assoc]

private theorem join_ne_nil {xs : List Source} (hx : xs ≠ []) (ys : List Source) :
    join xs ys ≠ [] := by
  match xs, ys with
  | [], _ => exact absurd rfl hx
  | _ :: _, [] => simp [join]
  | _ :: _, _ :: _ => simp [join]

/-- Joining makes one source out of two. -/
theorem length_join {xs ys : List Source} (hx : xs ≠ []) (hy : ys ≠ []) :
    (join xs ys).length + 1 = xs.length + ys.length := by
  match xs, ys with
  | [], _ => exact absurd rfl hx
  | _, [] => exact absurd rfl hy
  | x :: xs, y :: ys =>
      simp only [join, List.length_cons, List.length_append]
      omega

/-- Joined sources are changed part by part. -/
theorem Changed.join_iff {xs ys : List Source} (hx : xs ≠ []) (hy : ys ≠ [])
    (hwhole : ∀ code ∈ xs, isWhole code) :
    Changed f (join xs ys) outs
      ↔ ∃ xs' ys', Changed f xs xs' ∧ Changed f ys ys' ∧ outs = join xs' ys' := by
  match xs, ys with
  | [], _ => exact absurd rfl hx
  | _, [] => exact absurd rfl hy
  | x :: xs, y :: ys =>
      have hfirst : isWhole x := hwhole x List.mem_cons_self
      constructor
      · intro hchanged
        obtain ⟨out, rest, hout, hrest, rfl⟩ := List.forall₂_cons_left_iff.mp hchanged
        obtain ⟨x', y', hx', hy', rfl⟩ := (copied_append_iff hfirst).mp hout
        have htake := List.forall₂_take xs.length hrest
        have hdrop := List.forall₂_drop xs.length hrest
        rw [List.take_left] at htake
        rw [List.drop_left] at hdrop
        refine ⟨x' :: rest.take xs.length, y' :: rest.drop xs.length, .cons hx' htake,
          .cons hy' hdrop, ?_⟩
        simp only [join, List.take_append_drop]
      · rintro ⟨xs', ys', hxs, hys, rfl⟩
        obtain ⟨x', xs', hx', hxs', rfl⟩ := List.forall₂_cons_left_iff.mp hxs
        obtain ⟨y', ys', hy', hys', rfl⟩ := List.forall₂_cons_left_iff.mp hys
        exact .cons ((copied_append_iff hfirst).mpr ⟨x', y', hx', hy', rfl⟩)
          (List.rel_append hxs' hys')

private theorem Changed.whole' (hchanged : Changed f sources outs) :
    ∀ code ∈ outs, isWhole code := by
  induction hchanged with
  | nil => simp
  | cons hhead _ ih => exact List.forall_mem_cons.mpr ⟨hhead.whole', ih⟩

/-- Without positions, the first of the moved sources goes behind the first of the base.  With
the others after them, the sources are joined. -/
theorem mergeAll_of_ne_nil {base moved : List Source} (hbase : base ≠ []) (hmoved : moved ≠ []) :
    ∃ merged, mergeAll 0 base (moved.take 1) [none] = .ok merged ∧
      merged ++ moved.drop 1 = join base moved := by
  match base, moved with
  | [], _ => exact absurd rfl hbase
  | _, [] => exact absurd rfl hmoved
  | first :: rest, second :: more =>
      refine ⟨(first ++ second) :: rest, ?_, rfl⟩
      cases rest <;> rfl

/-- Linking without positions changes the operands of both programs and joins the sources. -/
theorem link_eq_ok_iff {a b p : Program} :
    a.link b = .ok p ↔ ∃ base moved, a.sources ≠ [] ∧ b.sources ≠ [] ∧
      Changed (pinPair a.constants.length) a.sources base ∧
      Changed ((moveBehind a.constants.length b.constants.length a.sources.length).pair 0)
        b.sources moved ∧
      p = ⟨join base moved, a.constants ++ b.constants, a.stackLength + b.stackLength,
        a.argumentsLength + b.argumentsLength⟩ := by
  let move := moveBehind a.constants.length b.constants.length a.sources.length
  have hbase : ∀ {outs}, mapSources (fun _ => pinPair a.constants.length) 0 a.sources = .ok outs
      ↔ Changed (pinPair a.constants.length) a.sources outs :=
    mapSources_eq_ok_iff (f := pinPair a.constants.length) fun _ _ _ _ => Iff.rfl
  have hmoved : ∀ {outs}, mapSources move.pair 0 b.sources = .ok outs
      ↔ Changed (move.pair 0) b.sources outs :=
    mapSources_eq_ok_iff (f := move.pair 0) fun i _ _ _ => Move.pair_eq_ok_iff i
  constructor
  · intro hlink
    obtain ⟨_, hcheck, hlink⟩ := except_bind_eq_ok hlink
    obtain ⟨base, hpin, hlink⟩ := except_bind_eq_ok hlink
    obtain ⟨moved, hmove, hlink⟩ := except_bind_eq_ok hlink
    obtain ⟨merged, hmerge, hlink⟩ := except_bind_eq_ok hlink
    obtain ⟨hb, ha, -⟩ := check_eq_ok hcheck
    have ha : a.sources ≠ [] := List.length_pos_iff.mp ha
    have hb : b.sources ≠ [] := List.length_pos_iff.mp hb
    have hpin := hbase.mp hpin
    have hmove := hmoved.mp hmove
    obtain ⟨merged', hmerge', hjoin⟩ :=
      mergeAll_of_ne_nil (hpin.ne_nil.mp ha) (hmove.ne_nil.mp hb)
    obtain rfl : merged = merged' := Except.ok.inj (hmerge.symm.trans hmerge')
    refine ⟨base, moved, ha, hb, hpin, hmove, ?_⟩
    rw [← hjoin]
    cases hlink
    rfl
  · rintro ⟨base, moved, ha, hb, hpin, hmove, rfl⟩
    have hcheck : LinkOptions.check {} a.sources.length b.sources.length = .ok () := by
      have ha := List.length_pos_iff.mpr ha
      have hb := List.length_pos_iff.mpr hb
      rw [LinkOptions.check, if_neg (by show ¬ _ < 1; omega), if_neg (by show ¬ _ < 0 + 1; omega)]
    obtain ⟨merged, hmerge, hjoin⟩ :=
      mergeAll_of_ne_nil (hpin.ne_nil.mp ha) (hmove.ne_nil.mp hb)
    have hpin := hbase.mpr hpin
    have hmove := hmoved.mpr hmove
    rw [← hjoin, Program.link, hcheck]
    show (mapSources (fun _ => pinPair a.constants.length) 0 a.sources >>= _) = _
    rw [hpin]
    show (mapSources move.pair 0 b.sources >>= _) = _
    rw [hmove]
    show (mergeAll 0 base (moved.take 1) [none] >>= _) = _
    rw [hmerge]
    rfl

/-! ## Three programs -/

/-- The program that three programs make in a row: each one's operands are changed once, for
its place behind the programs before it. -/
def InRow (a b c p : Program) : Prop :=
  ∃ xs ys zs, a.sources ≠ [] ∧ b.sources ≠ [] ∧ c.sources ≠ [] ∧
    Changed (pinPair a.constants.length) a.sources xs ∧
    Changed ((moveBehind a.constants.length b.constants.length a.sources.length).pair 0)
      b.sources ys ∧
    Changed ((moveBehind (a.constants.length + b.constants.length) c.constants.length
      (a.sources.length + b.sources.length - 1)).pair 0) c.sources zs ∧
    p = ⟨join (join xs ys) zs, a.constants ++ b.constants ++ c.constants,
      a.stackLength + b.stackLength + c.stackLength,
      a.argumentsLength + b.argumentsLength + c.argumentsLength⟩

variable {a b c p : Program}

private theorem length_join_of_changed {xs ys : List Source} (ha : a.sources ≠ [])
    (hb : b.sources ≠ []) (hx : Changed f a.sources xs) (hy : Changed g b.sources ys) :
    (join xs ys).length = a.sources.length + b.sources.length - 1 := by
  have hlength := length_join (hx.ne_nil.mp ha) (hy.ne_nil.mp hb)
  rw [← hx.length_eq, ← hy.length_eq] at hlength
  omega

/-- The first two programs, and then the third behind them. -/
theorem link_link_eq_ok_iff :
    (∃ ab, a.link b = .ok ab ∧ ab.link c = .ok p) ↔ InRow a b c p := by
  constructor
  · rintro ⟨ab, hab, hp⟩
    obtain ⟨base, moved, ha, hb, hbase, hmoved, rfl⟩ := link_eq_ok_iff.mp hab
    obtain ⟨outs, zs, -, hc, houts, hzs, rfl⟩ := link_eq_ok_iff.mp hp
    dsimp only at houts hzs
    rw [List.length_append] at houts hzs
    rw [length_join_of_changed ha hb hbase hmoved] at hzs
    -- the sources of both programs were pinned once more
    obtain ⟨xs, ys, hxs, hys, rfl⟩ := (Changed.join_iff (hbase.ne_nil.mp ha)
      (hmoved.ne_nil.mp hb) hbase.whole').mp houts
    exact ⟨xs, ys, zs, ha, hb, hc, (Changed.comp_iff (pinned_pinned_iff _)).mp ⟨base, hbase, hxs⟩,
      (Changed.comp_iff moved_pinned_iff).mp ⟨moved, hmoved, hys⟩, hzs, rfl⟩
  · rintro ⟨xs, ys, zs, ha, hb, hc, hxs, hys, hzs, rfl⟩
    obtain ⟨base, hbase, hxs⟩ :=
      (Changed.comp_iff (pinned_pinned_iff b.constants.length)).mpr hxs
    obtain ⟨moved, hmoved, hys⟩ := (Changed.comp_iff moved_pinned_iff).mpr hys
    refine ⟨_, link_eq_ok_iff.mpr ⟨base, moved, ha, hb, hbase, hmoved, rfl⟩,
      link_eq_ok_iff.mpr ⟨join xs ys, zs, join_ne_nil (hbase.ne_nil.mp ha) _, hc, ?_, ?_, rfl⟩⟩
    · dsimp only
      rw [List.length_append, Changed.join_iff (hbase.ne_nil.mp ha) (hmoved.ne_nil.mp hb)
        hbase.whole']
      exact ⟨xs, ys, hxs, hys, rfl⟩
    · dsimp only
      rw [List.length_append, length_join_of_changed ha hb hbase hmoved]
      exact hzs

/-- The last two programs, and then both behind the first. -/
theorem link_of_link_eq_ok_iff :
    (∃ bc, b.link c = .ok bc ∧ a.link bc = .ok p) ↔ InRow a b c p := by
  constructor
  · rintro ⟨bc, hbc, hp⟩
    obtain ⟨base, moved, hb, hc, hbase, hmoved, rfl⟩ := link_eq_ok_iff.mp hbc
    obtain ⟨xs, outs, ha, -, hxs, houts, rfl⟩ := link_eq_ok_iff.mp hp
    dsimp only at houts
    rw [List.length_append] at houts
    have hlengths := List.length_pos_iff.mpr ha
    have hlengths' := List.length_pos_iff.mpr hb
    -- the sources of both programs were moved together
    obtain ⟨ys, zs, hys, hzs, rfl⟩ := (Changed.join_iff (hbase.ne_nil.mp hb)
      (hmoved.ne_nil.mp hc) hbase.whole').mp houts
    have hys' := (Changed.comp_iff (pinned_moved_iff _)).mp ⟨base, hbase, hys⟩
    have hzs' := (Changed.comp_iff (moved_moved_iff hlengths hlengths')).mp ⟨moved, hmoved, hzs⟩
    refine ⟨xs, ys, zs, ha, hb, hc, hxs, hys', hzs', ?_⟩
    rw [join_assoc (hxs.ne_nil.mp ha) (hys'.ne_nil.mp hb) (hzs'.ne_nil.mp hc)]
    simp only [List.append_assoc, UInt64.add_assoc]
  · rintro ⟨xs, ys, zs, ha, hb, hc, hxs, hys, hzs, rfl⟩
    have hlengths := List.length_pos_iff.mpr ha
    have hlengths' := List.length_pos_iff.mpr hb
    obtain ⟨base, hbase, hbase'⟩ :=
      (Changed.comp_iff (pinned_moved_iff c.constants.length)).mpr hys
    obtain ⟨moved, hmoved, hmoved'⟩ :=
      (Changed.comp_iff (moved_moved_iff hlengths hlengths')).mpr hzs
    refine ⟨_, link_eq_ok_iff.mpr ⟨base, moved, hb, hc, hbase, hmoved, rfl⟩,
      link_eq_ok_iff.mpr ⟨xs, join ys zs, ha, join_ne_nil (hbase.ne_nil.mp hb) _, hxs, ?_, ?_⟩⟩
    · dsimp only
      rw [List.length_append, Changed.join_iff (hbase.ne_nil.mp hb) (hmoved.ne_nil.mp hc)
        hbase.whole']
      exact ⟨ys, zs, hbase', hmoved', rfl⟩
    · rw [join_assoc (hxs.ne_nil.mp ha) (hys.ne_nil.mp hb) (hzs.ne_nil.mp hc)]
      simp only [List.append_assoc, UInt64.add_assoc]

end Link

/-- Linking is associative.  Three programs can be linked starting with the first two exactly if
they can be linked starting with the last two, and both ways give the same program: the same
code byte for byte, the constants of the three programs in order, and the sums of their
hints. -/
theorem linking_is_associative (a b c : Program) :
    ((∃ p, (a.link b >>= fun ab => ab.link c) = .ok p) ↔
      ∃ q, (b.link c >>= fun bc => a.link bc) = .ok q) ∧
    ∀ p q, (a.link b >>= fun ab => ab.link c) = .ok p →
      (b.link c >>= fun bc => a.link bc) = .ok q →
      p.sources = q.sources ∧
      p.constants = a.constants ++ b.constants ++ c.constants ∧
      q.constants = a.constants ++ b.constants ++ c.constants ∧
      p.stackLength = q.stackLength ∧ p.argumentsLength = q.argumentsLength := by
  have hleft : ∀ p, (a.link b >>= fun ab => ab.link c) = .ok p ↔ Link.InRow a b c p := by
    intro p
    rw [← Link.link_link_eq_ok_iff]
    constructor
    · exact except_bind_eq_ok
    · rintro ⟨ab, hab, hp⟩
      rw [hab]
      exact hp
  have hright : ∀ q, (b.link c >>= fun bc => a.link bc) = .ok q ↔ Link.InRow a b c q := by
    intro q
    rw [← Link.link_of_link_eq_ok_iff]
    constructor
    · exact except_bind_eq_ok
    · rintro ⟨bc, hbc, hq⟩
      rw [hbc]
      exact hq
  constructor
  · exact exists_congr fun p => (hleft p).trans (hright p).symm
  · intro p q hp hq
    -- what the one way gives, the other way gives too, and it gives only one program
    have hboth := (hright p).mpr ((hleft p).mp hp)
    obtain rfl : p = q := Except.ok.inj (hboth.symm.trans hq)
    obtain ⟨xs, ys, zs, -, -, -, -, -, -, rfl⟩ := (hleft p).mp hp
    exact ⟨rfl, rfl, rfl, rfl, rfl⟩

/-- Three programs with constants, reads past their pools and sources that `ZIPMAP` evaluates. -/
theorem linking_is_associative_of_three :
    let a : Program := ⟨[ Combinator.code [(.constant, 0), (.constant, 1), (.zipmap, 1)],
      Combinator.code [(.constant, 3)] ], [Word.ofSmall 5], 3, 1⟩
    let b : Program := ⟨[ Combinator.code [(.constant, 1), (.zipmap, 1)],
      Combinator.code [(.constant, 0x80), (.constant, 2)] ], [Word.ofSmall 7, Word.ofSmall 8], 2, 1⟩
    let c : Program := ⟨[ Combinator.code [(.constant, 0), (.zipmap, 0x29)],
      Combinator.code [(.constant, 1), (.constant, 0x81)] ], [Word.ofSmall 9], 4, 2⟩
    let all : Program := ⟨[ Combinator.code [(.constant, 0), (.constant, 0x80), (.zipmap, 1),
        (.constant, 2), (.zipmap, 2), (.constant, 3), (.zipmap, 0x2b)],
      Combinator.code [(.constant, 0x82)], Combinator.code [(.constant, 0x80), (.constant, 0x80)],
      Combinator.code [(.constant, 0x80), (.constant, 0x81)] ],
      [Word.ofSmall 5, Word.ofSmall 7, Word.ofSmall 8, Word.ofSmall 9], 9, 4⟩
    (a.link b >>= fun ab => ab.link c) = .ok all ∧
      ∃ q, (b.link c >>= fun bc => a.link bc) = .ok q ∧ all.sources = q.sources := by
  intro a b c all
  have hall : (a.link b >>= fun ab => ab.link c) = .ok all := by decide
  obtain ⟨hsucceeds, hequal⟩ := linking_is_associative a b c
  obtain ⟨q, hq⟩ := hsucceeds.mp ⟨all, hall⟩
  exact ⟨hall, q, hq, (hequal all q hall hq).1⟩

end WordMachine
