import WordMachine.Linking.Link
import WordMachine.Proofs.Computation
import WordMachine.Proofs.Evaluation.Calls
import WordMachine.Proofs.Operand

/-!
# What linking does to code

Linking changes operands and rearranges sources.  A changed operand still
reads the same constant or argument from the larger pool, and still names the
same source, at its new place.  The sources of the result are the changed
sources of the base, the changed sources of the appended program, and at each
merged index one of the former with one of the latter inside.

## Main definitions

* `Link.Copied` — code whose operands were changed one by one
* `LinkOptions.cut` — how many pairs of the base come before the merged code

## Main results

* `Link.readConstant_of_pinArgument`, `Link.Move.readConstant_of_constant` —
  changed constant reads mean the same
* `Link.Linked`, `Link.linked_of_link_eq_ok` — the shape of a linked program
-/

namespace WordMachine

namespace Link

/-! ## Constant reads -/

private theorem readConstant_of_resolve_argument {pool frame : List Word} {x i : UInt8}
    (h : Fetch.resolve x pool.length = .argument i) :
    readConstant pool frame x = Machine.fetch frame i.toUInt64 := by
  rw [readConstant, h]

/-- A small index that the pool has reads that entry. -/
theorem readConstant_of_getElem? {pool : List Word} (frame : List Word) {x : UInt8} {v : Word}
    (hsmall : x.toNat ≤ maxConstantIndex) (h : pool[x.toNat]? = some v) :
    readConstant pool frame x = .ok v := by
  have hpool : x.toNat < pool.length := (List.getElem?_eq_some_iff.mp h).1
  rw [readConstant, Fetch.resolve_eq_constant_iff.mpr ⟨rfl, hsmall, hpool⟩]
  simp only [Machine.fetch, UInt8.toNat_toUInt64, h]

/-- A pinned operand reads from a longer pool what it read before. -/
theorem readConstant_of_pinArgument {pool : List Word} {x x' : UInt8}
    (h : pinArgument x pool.length = .ok x') (extra frame : List Word) :
    readConstant (pool ++ extra) frame x' = readConstant pool frame x := by
  rw [pinArgument] at h
  cases hresolve : Fetch.resolve x pool.length with
  | argument i =>
      rw [hresolve] at h
      have hencode := mapError_eq_ok_iff.mp h
      rw [readConstant_of_resolve_argument (Fetch.resolve_of_encode_argument hencode _),
        readConstant_of_resolve_argument hresolve]
  | constant i =>
      rw [hresolve] at h
      cases h
      obtain ⟨-, hsmall, hpool⟩ := Fetch.resolve_eq_constant_iff.mp hresolve
      have hentry : pool[x.toNat]? = some pool[x.toNat] := List.getElem?_eq_getElem hpool
      rw [readConstant_of_getElem? frame hsmall hentry, readConstant_of_getElem? frame hsmall]
      rw [List.getElem?_append_left hpool, hentry]

/-- A moved operand reads from behind the base's pool what it read before. -/
theorem Move.readConstant_of_constant {move : Move} {base pool : List Word} {source : Nat}
    {x x' : UInt8} (hbase : move.basePool = base.length) (hpool : move.pool = pool.length)
    (h : move.constant source x = .ok x') (frame : List Word) :
    readConstant (base ++ pool) frame x' = readConstant pool frame x := by
  rw [Move.constant, hpool, hbase] at h
  cases hresolve : Fetch.resolve x pool.length with
  | argument i =>
      rw [hresolve] at h
      simp only [pinArgument, hresolve] at h
      have hencode := mapError_eq_ok_iff.mp h
      rw [readConstant_of_resolve_argument (Fetch.resolve_of_encode_argument hencode _),
        readConstant_of_resolve_argument hresolve]
  | constant i =>
      obtain ⟨rfl, hsmall, hlt⟩ := Fetch.resolve_eq_constant_iff.mp hresolve
      rw [hresolve] at h
      dsimp only at h
      split at h
      · cases h
      · next hfits =>
          cases h
          rw [maxConstantIndex] at hfits hsmall
          have hbyte : (UInt8.ofNat (i.toNat + base.length)).toNat = base.length + i.toNat := by
            rw [UInt8.toNat_ofNat']
            omega
          have hentry : pool[i.toNat]? = some pool[i.toNat] := List.getElem?_eq_getElem hlt
          rw [readConstant_of_getElem? frame hsmall hentry, readConstant_of_getElem? frame]
          · rw [hbyte, maxConstantIndex]
            omega
          · rw [hbyte, List.getElem?_append_right (Nat.le_add_right _ _),
              Nat.add_sub_cancel_left, hentry]

/-! ## `ZIPMAP` operands -/

/-- The operand that a `ZIPMAP` operand becomes; operands that cannot be moved
stay. -/
def Move.zipped (move : Move) (operand : UInt8) : UInt8 :=
  match move.zip 0 operand with
  | .ok moved => moved
  | .error _ => operand

theorem Move.zip_eq_ok {move : Move} {source : Nat} {x x' : UInt8}
    (h : move.zip source x = .ok x') :
    move.zipped x = x' ∧
      Zip.decode x'
        = { Zip.decode x with source := .ofNat (move.source (Zip.decode x).source.toNat) } ∧
      move.source (Zip.decode x).source.toNat ≤ maxZipSource := by
  simp only [Move.zip] at h
  split at h
  · cases h
  · next hfits =>
      refine ⟨?_, Zip.decode_of_encode_eq_ok (mapError_eq_ok_iff.mp h), Nat.not_lt.mp hfits⟩
      simp only [Move.zipped, Move.zip, if_neg hfits, h]

/-- A moved `ZIPMAP` names the moved source. -/
theorem Move.source_of_zip {move : Move} {source : Nat} {x x' : UInt8}
    (h : move.zip source x = .ok x') :
    (Zip.decode x').source.toNat = move.source (Zip.decode x).source.toNat := by
  obtain ⟨-, hdecode, hfits⟩ := move.zip_eq_ok h
  rw [maxZipSource] at hfits
  rw [hdecode]
  dsimp only
  rw [UInt8.toNat_ofNat']
  omega

/-! ## Changed code -/

theorem isWhole_append {first second : Source} (hfirst : isWhole first)
    (hsecond : isWhole second) : isWhole (first ++ second) := by
  simp only [isWhole, List.length_append, beq_iff_eq] at *
  omega

private theorem pairs_take (n : Nat) (source : Source) :
    pairs (source.take (2 * n)) = (pairs source).take n := by
  induction n generalizing source with
  | zero => rfl
  | succ n ih =>
      match source with
      | [] => rfl
      | [_] => rfl
      | opcode :: operand :: rest =>
          rw [Nat.mul_succ]
          simp only [List.take_succ_cons, pairs, ih]

private theorem pairs_drop (n : Nat) (source : Source) :
    pairs (source.drop (2 * n)) = (pairs source).drop n := by
  induction n generalizing source with
  | zero => rfl
  | succ n ih =>
      match source with
      | [] => rfl
      | [_] =>
          rw [Nat.mul_succ]
          rfl
      | opcode :: operand :: rest =>
          rw [Nat.mul_succ]
          simp only [List.drop_succ_cons, pairs, ih]

/-- The second code is the first with its operands changed. -/
structure Copied (f : UInt8 → UInt8 → Except LinkError UInt8) (code code' : Source) : Prop where
  whole : isWhole code
  whole' : isWhole code'
  pairs : List.Forall₂
    (fun pair pair' => pair'.1 = pair.1 ∧ f pair.1 pair.2 = .ok pair'.2)
    (pairs code) (pairs code')

private theorem mapPairs_eq_ok {f : UInt8 → UInt8 → Except LinkError UInt8}
    {code : List (UInt8 × UInt8)} {out : Source} (h : mapPairs f code = .ok out) :
    isWhole out ∧ List.Forall₂
      (fun pair pair' => pair'.1 = pair.1 ∧ f pair.1 pair.2 = .ok pair'.2)
      code (pairs out) := by
  induction code generalizing out with
  | nil =>
      cases h
      exact ⟨rfl, .nil⟩
  | cons head rest ih =>
      obtain ⟨moved, hmoved, h⟩ := except_bind_eq_ok h
      obtain ⟨codes, hcodes, h⟩ := except_bind_eq_ok h
      cases h
      obtain ⟨hwhole, hrest⟩ := ih hcodes
      refine ⟨?_, .cons ⟨rfl, hmoved⟩ hrest⟩
      rwa [isWhole_cons_cons]

theorem copied_of_mapSource {f : UInt8 → UInt8 → Except LinkError UInt8} {index : Nat}
    {code out : Source} (h : mapSource f index code = .ok out) : Copied f code out := by
  rw [mapSource] at h
  split at h
  · next hwhole =>
      obtain ⟨hwhole', hpairs⟩ := mapPairs_eq_ok h
      exact ⟨hwhole, hwhole', hpairs⟩
  · cases h

/-- Changing sources changes each one, with its own index. -/
theorem copied_of_mapSources {f : Nat → UInt8 → UInt8 → Except LinkError UInt8} {index : Nat}
    {sources out : List Source} (h : mapSources f index sources = .ok out) :
    out.length = sources.length ∧ ∀ {i code}, sources[i]? = some code →
      ∃ code', out[i]? = some code' ∧ Copied (f (index + i)) code code' := by
  induction sources generalizing index out with
  | nil =>
      cases h
      exact ⟨rfl, fun hcode => by cases hcode⟩
  | cons source rest ih =>
      obtain ⟨head, hhead, h⟩ := except_bind_eq_ok h
      obtain ⟨codes, hcodes, h⟩ := except_bind_eq_ok h
      cases h
      obtain ⟨hlength, hrest⟩ := ih hcodes
      refine ⟨by simp only [List.length_cons, hlength], ?_⟩
      intro i code hcode
      cases i with
      | zero =>
          cases hcode
          exact ⟨head, rfl, copied_of_mapSource hhead⟩
      | succ i =>
          obtain ⟨code', hcode', hcopied⟩ := hrest hcode
          rw [Nat.add_right_comm] at hcopied
          exact ⟨code', hcode', hcopied⟩

/-! ## Merged code -/

/-- Merging one code after the other keeps the targets beyond them. -/
theorem mergeAll_eq_ok {index : Nat} {targets codes merged : List Source}
    {places : List (Option Nat)} (h : mergeAll index targets codes places = .ok merged)
    (hplaces : places.length = codes.length) (htargets : codes.length ≤ targets.length) :
    merged.length = targets.length ∧
      (∀ i, codes.length ≤ i → merged[i]? = targets[i]?) ∧
      ∀ {i target code place}, targets[i]? = some target → codes[i]? = some code →
        places[i]? = some place →
        ∃ source, merged[i]? = some source ∧
          mergeOne (index + i) target code place = .ok source := by
  induction codes generalizing index targets places merged with
  | nil =>
      obtain rfl : places = [] := List.length_eq_zero_iff.mp hplaces
      have hmerged : merged = targets := by
        cases targets <;> cases h <;> rfl
      subst hmerged
      exact ⟨rfl, fun _ _ => rfl, fun _ hcode => by cases hcode⟩
  | cons code codes ih =>
      match targets, places with
      | [], _ => cases htargets
      | _, [] => cases hplaces
      | target :: targets, place :: places =>
          obtain ⟨source, hsource, h⟩ := except_bind_eq_ok h
          obtain ⟨sources, hsources, h⟩ := except_bind_eq_ok h
          cases h
          simp only [List.length_cons, Nat.add_right_cancel_iff, Nat.add_le_add_iff_right]
            at hplaces htargets
          obtain ⟨hlength, hbeyond, hmerged⟩ := ih hsources hplaces htargets
          refine ⟨by simp only [List.length_cons, hlength], ?_, ?_⟩
          · intro i hi
            cases i with
            | zero => cases hi
            | succ i => exact hbeyond i (Nat.le_of_succ_le_succ hi)
          · intro i target' code' place' htarget hcode hplace
            cases i with
            | zero =>
                cases htarget
                cases hcode
                cases hplace
                exact ⟨source, rfl, hsource⟩
            | succ i =>
                obtain ⟨source', hsource', hmerge⟩ := hmerged htarget hcode hplace
                rw [Nat.add_right_comm] at hmerge
                exact ⟨source', hsource', hmerge⟩

end Link

/-- How many of the `count` pairs of the base come before merged source `i`. -/
def LinkOptions.cut (options : LinkOptions) (i count : Nat) : Nat :=
  match options.positions with
  | none => count
  | some offsets => offsets.getD i 0 / 2

/-- Source `j` of the base is not one that code is merged into. -/
def LinkOptions.Outside (options : LinkOptions) (j : Nat) : Prop :=
  j < options.spliceAt ∨ options.spliceAt + options.merged ≤ j

instance (options : LinkOptions) (j : Nat) : Decidable (options.Outside j) :=
  inferInstanceAs (Decidable (_ ∨ _))

/-- How linking moves the references of the appended program. -/
def LinkOptions.move (options : LinkOptions) (a b : Program) : Link.Move where
  basePool := a.constants.length
  pool := b.constants.length
  spliceAt := options.spliceAt
  merged := options.merged
  baseSources := a.sources.length

/-- A source that is not merged goes behind those of the base. -/
theorem LinkOptions.move_source_of_le {options : LinkOptions} {target : Nat}
    (h : options.merged ≤ target) (a b : Program) :
    (options.move a b).source target = a.sources.length + target - options.merged := by
  have hmerged : ¬ target < (options.move a b).merged := Nat.not_lt.mpr h
  rw [Link.Move.source, if_neg hmerged, Nat.add_comm]
  rfl

namespace Link

/-- The numbers of sources and positions that pass the check. -/
theorem check_eq_ok {options : LinkOptions} {baseSources sources : Nat}
    (h : options.check baseSources sources = .ok ()) :
    options.merged ≤ sources ∧ options.spliceAt + options.merged ≤ baseSources ∧
      options.places.length = options.merged := by
  rw [LinkOptions.check] at h
  split at h
  · cases h
  · split at h
    · cases h
    · refine ⟨by omega, by omega, ?_⟩
      rw [LinkOptions.places]
      cases hpositions : options.positions with
      | none => exact List.length_replicate
      | some offsets =>
          rw [hpositions] at h
          dsimp only at h
          split at h
          · cases h
          · next hcount =>
              dsimp only
              rw [List.length_map, Decidable.not_not.mp hcount]

/-- Merged code stands between the pairs before the cut and those after. -/
theorem pairs_of_mergeOne {options : LinkOptions} {index i : Nat} {target code source : Source}
    {place : Option Nat} (hplace : options.places[i]? = some place)
    (h : mergeOne index target code place = .ok source) (htarget : isWhole target)
    (hcode : isWhole code) :
    isWhole source ∧ pairs source
      = (pairs target).take (options.cut i (pairs target).length) ++ pairs code
        ++ (pairs target).drop (options.cut i (pairs target).length) := by
  rw [LinkOptions.places] at hplace
  rw [LinkOptions.cut]
  cases hpositions : options.positions with
  | none =>
      rw [hpositions] at hplace
      obtain rfl : place = none := by
        have hmem := List.mem_of_getElem? hplace
        exact (List.mem_replicate.mp hmem).2
      cases h
      refine ⟨isWhole_append htarget hcode, ?_⟩
      dsimp only
      rw [pairs_append htarget, List.take_length, List.drop_length, List.append_nil]
  | some offsets =>
      rw [hpositions] at hplace
      simp only [List.getElem?_map, Option.map_eq_some_iff] at hplace
      obtain ⟨offset, hoffset, rfl⟩ := hplace
      simp only [mergeOne] at h
      split at h
      · cases h
      · next hbounds =>
          cases h
          have heven : offset = 2 * (offset / 2) := by omega
          have htake : isWhole (target.take offset) := by
            simp only [isWhole, List.length_take, beq_iff_eq]
            omega
          have hdrop : isWhole (target.drop offset) := by
            simp only [isWhole, List.length_drop, beq_iff_eq] at htarget ⊢
            omega
          refine ⟨isWhole_append (isWhole_append htake hcode) hdrop, ?_⟩
          dsimp only
          rw [pairs_append (isWhole_append htake hcode), pairs_append htake, heven, pairs_take,
            pairs_drop, List.getD_eq_getElem?_getD, hoffset, Option.getD_some]

/-- The program `c` is `b` linked onto `a`. -/
structure Linked (a b c : Program) (options : LinkOptions) : Prop where
  merged_le : options.merged ≤ b.sources.length
  splice_le : options.spliceAt + options.merged ≤ a.sources.length
  constants : c.constants = a.constants ++ b.constants
  length : c.sources.length = a.sources.length + b.sources.length - options.merged
  base : ∀ {j code}, a.sources[j]? = some code → options.Outside j →
    ∃ code', c.sources[j]? = some code' ∧ Copied (pinPair a.constants.length) code code'
  appended : ∀ {k code}, b.sources[k]? = some code → options.merged ≤ k →
    ∃ code', c.sources[a.sources.length + k - options.merged]? = some code' ∧
      Copied ((options.move a b).pair k) code code'
  merged : ∀ {i target code}, i < options.merged →
    a.sources[options.spliceAt + i]? = some target → b.sources[i]? = some code →
    ∃ target' code' source, Copied (pinPair a.constants.length) target target' ∧
      Copied ((options.move a b).pair i) code code' ∧
      c.sources[options.spliceAt + i]? = some source ∧ isWhole source ∧
      pairs source = (pairs target').take (options.cut i (pairs target').length) ++ pairs code'
        ++ (pairs target').drop (options.cut i (pairs target').length)

/-- Linking that succeeds gives a linked program. -/
theorem linked_of_link_eq_ok {a b c : Program} {options : LinkOptions}
    (h : a.link b options = .ok c) : Linked a b c options := by
  obtain ⟨_, hcheck, h⟩ := except_bind_eq_ok h
  obtain ⟨base, hbase, h⟩ := except_bind_eq_ok h
  obtain ⟨moved, hmoved, h⟩ := except_bind_eq_ok h
  obtain ⟨merged, hmerged, h⟩ := except_bind_eq_ok h
  cases h
  obtain ⟨hmerged_le, hsplice_le, hplaces⟩ := check_eq_ok hcheck
  obtain ⟨hbaseLength, hbase⟩ := copied_of_mapSources hbase
  obtain ⟨hmovedLength, hmoved⟩ := copied_of_mapSources hmoved
  simp only [Nat.zero_add] at hmoved
  have hcodes : (moved.take options.merged).length = options.merged := by
    rw [List.length_take]
    omega
  obtain ⟨hlength, hbeyond, hmerge⟩ := mergeAll_eq_ok hmerged (by omega) (by
    rw [hcodes, List.length_drop]
    omega)
  -- the three parts of the sources of the result
  have hbefore : (base.take options.spliceAt).length = options.spliceAt := by
    rw [List.length_take]
    omega
  have hfront : (base.take options.spliceAt ++ merged).length = a.sources.length := by
    rw [List.length_append, hbefore, hlength, List.length_drop]
    omega
  refine ⟨hmerged_le, hsplice_le, rfl, ?_, ?_, ?_, ?_⟩
  · rw [List.length_append, hfront, List.length_drop, hmovedLength]
    omega
  · intro j code hcode hj
    obtain ⟨code', hcode', hcopied⟩ := hbase hcode
    have hlt : j < a.sources.length := (List.getElem?_eq_some_iff.mp hcode).1
    refine ⟨code', ?_, hcopied⟩
    rw [List.getElem?_append_left (by omega)]
    rcases hj with hj | hj
    · rw [List.getElem?_append_left (by omega), List.getElem?_take_of_lt hj, hcode']
    · rw [List.getElem?_append_right (by omega), hbefore, hbeyond _ (by omega),
        List.getElem?_drop, Nat.add_sub_cancel' (by omega), hcode']
  · intro k code hcode hk
    obtain ⟨code', hcode', hcopied⟩ := hmoved hcode
    refine ⟨code', ?_, hcopied⟩
    rw [List.getElem?_append_right (by omega), hfront, List.getElem?_drop]
    rw [show options.merged + (a.sources.length + k - options.merged - a.sources.length) = k by
      omega]
    exact hcode'
  · intro i target code hi htarget hcode
    obtain ⟨target', htarget', htargetCopied⟩ := hbase htarget
    obtain ⟨code', hcode', hcodeCopied⟩ := hmoved hcode
    have hplace : options.places[i]? = some options.places[i] :=
      List.getElem?_eq_getElem (by omega)
    obtain ⟨source, hsource, hmergeOne⟩ := hmerge
      (by rw [List.getElem?_drop, htarget']) (by rw [List.getElem?_take_of_lt hi, hcode']) hplace
    obtain ⟨hwhole, hpairs⟩ := pairs_of_mergeOne hplace hmergeOne htargetCopied.whole'
      hcodeCopied.whole'
    refine ⟨target', code', source, htargetCopied, hcodeCopied, ?_, hwhole, hpairs⟩
    rw [List.getElem?_append_left, List.getElem?_append_right (by omega), hbefore,
      Nat.add_sub_cancel_left, hsource]
    omega

end Link

end WordMachine
