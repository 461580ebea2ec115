import WordMachine.Program.Binary
import WordMachine.Proofs.Codec

/-!
# The binary format is canonical

A file is read exactly if it is the one that some program within the limits of the reader is
written to.  Such files are told apart by their bytes alone: no file is the beginning of
another one.  The writer has no limits, but the file of a program beyond them is not mistaken
for that of a smaller program.

## Main definitions

* `Program.Within` — programs whose lists have at most a given number of items

## Main results

* `Program.decode_eq_ok_iff`, `Program.ofBytes_eq_ok_iff` — which bodies and files are read
* `Program.encode_append_inj` — no body is the beginning of another one
* `Program.binary_format_is_canonical`
-/

namespace WordMachine.Program

variable {p q : Program} {input rest rest' : List UInt8} {limit : Nat}

/-- The number of sources, the length of each of them and the number of constants are at most
`limit`. -/
structure Within (limit : Nat) (p : Program) : Prop where
  sources : p.sources.length ≤ limit
  lengths : ∀ source ∈ p.sources, source.length ≤ limit
  constants : p.constants.length ≤ limit

instance (limit : Nat) (p : Program) : Decidable (p.Within limit) :=
  decidable_of_iff
    (p.sources.length ≤ limit ∧ (∀ source ∈ p.sources, source.length ≤ limit)
      ∧ p.constants.length ≤ limit)
    ⟨fun ⟨sources, lengths, constants⟩ => ⟨sources, lengths, constants⟩,
      fun ⟨sources, lengths, constants⟩ => ⟨sources, lengths, constants⟩⟩

/-- The limit on a program is one on the two lists that it is written as. -/
theorem within_iff :
    p.Within limit
      ↔ sourcesShape.Bounded limit p.sources ∧ constantsShape.Bounded limit p.constants := by
  constructor
  · rintro ⟨sources, lengths, constants⟩
    exact ⟨⟨sources, fun source hmem => ⟨lengths source hmem, fun _ _ => trivial⟩⟩,
      ⟨constants, fun _ _ => trivial⟩⟩
  · rintro ⟨⟨sources, lengths⟩, ⟨constants, -⟩⟩
    exact ⟨sources, fun source hmem => (lengths source hmem).1, constants⟩

/-! ## Bodies -/

private theorem encode_append (p : Program) (rest : List UInt8) :
    p.encode ++ rest
      = sourcesShape.encode p.sources ++ (constantsShape.encode p.constants
        ++ (Shape.uint64.encode p.stackLength ++ (Shape.uint64.encode p.argumentsLength
          ++ rest))) := by
  simp only [encode, List.append_assoc]

/-- Reading a body accepts exactly the encodings of programs within the limit, and leaves what
comes after them. -/
theorem decode_eq_ok_iff :
    decode input = .ok (p, rest) ↔ input = p.encode ++ rest ∧ p.Within Shape.maxLength := by
  rw [within_iff, encode_append]
  constructor
  · intro h
    obtain ⟨⟨sources, afterSources⟩, hreadSources, h⟩ := except_bind_eq_ok h
    obtain ⟨⟨constants, afterConstants⟩, hreadConstants, h⟩ := except_bind_eq_ok h
    obtain ⟨⟨stackLength, afterStack⟩, hreadStack, h⟩ := except_bind_eq_ok h
    obtain ⟨⟨argumentsLength, afterArguments⟩, hreadArguments, h⟩ := except_bind_eq_ok h
    cases h
    obtain ⟨rfl, hsources⟩ := (Shape.decode_eq_ok_iff _).mp hreadSources
    obtain ⟨rfl, hconstants⟩ := (Shape.decode_eq_ok_iff _).mp hreadConstants
    obtain ⟨rfl, -⟩ := (Shape.decode_eq_ok_iff _).mp hreadStack
    obtain ⟨rfl, -⟩ := (Shape.decode_eq_ok_iff _).mp hreadArguments
    exact ⟨rfl, hsources, hconstants⟩
  · rintro ⟨rfl, hsources, hconstants⟩
    refine except_bind_eq_ok_iff.mpr ⟨_, (Shape.decode_eq_ok_iff _).mpr ⟨rfl, hsources⟩, ?_⟩
    refine except_bind_eq_ok_iff.mpr ⟨_, (Shape.decode_eq_ok_iff _).mpr ⟨rfl, hconstants⟩, ?_⟩
    refine except_bind_eq_ok_iff.mpr ⟨_, (Shape.decode_eq_ok_iff .uint64).mpr ⟨rfl, trivial⟩, ?_⟩
    exact except_bind_eq_ok_iff.mpr ⟨_, (Shape.decode_eq_ok_iff .uint64).mpr ⟨rfl, trivial⟩, rfl⟩

/-- No body is the beginning of another one, as long as lengths have 64 bits. -/
theorem encode_append_inj (hlimit : limit < 256 ^ 8) (hp : p.Within limit) (hq : q.Within limit)
    (h : p.encode ++ rest = q.encode ++ rest') : p = q ∧ rest = rest' := by
  obtain ⟨hpsources, hpconstants⟩ := within_iff.mp hp
  obtain ⟨hqsources, hqconstants⟩ := within_iff.mp hq
  rw [encode_append, encode_append] at h
  obtain ⟨hsources, h⟩ := Shape.encode_append_inj _ hlimit hpsources hqsources h
  obtain ⟨hconstants, h⟩ := Shape.encode_append_inj _ hlimit hpconstants hqconstants h
  obtain ⟨hstack, h⟩ := Shape.encode_append_inj .uint64 hlimit trivial trivial h
  obtain ⟨harguments, h⟩ := Shape.encode_append_inj .uint64 hlimit trivial trivial h
  exact ⟨Program.ext hsources hconstants hstack harguments, h⟩

/-- The lists of a program are no longer than its body. -/
theorem within_length_encode (p : Program) : p.Within p.encode.length := by
  refine within_iff.mpr ⟨Shape.bounded_of_length_encode_le _ ?_,
    Shape.bounded_of_length_encode_le _ ?_⟩
  all_goals
    simp only [encode, List.length_append]
    omega

/-- The body of a program within a limit has a limit on its length. -/
theorem length_encode_le (hp : p.Within limit) :
    p.encode.length ≤ sourcesShape.maxSize limit + constantsShape.maxSize limit + 16 := by
  obtain ⟨hsources, hconstants⟩ := within_iff.mp hp
  have hsources := Shape.length_encode_le _ hsources
  have hconstants := Shape.length_encode_le _ hconstants
  have hhint (hint : UInt64) : (Shape.uint64.encode hint).length = 8 :=
    Shape.length_littleEndian 8 hint.toNat
  simp only [encode, List.length_append, hhint]
  omega

/-- A program with the body of one that can be read is that program.  The equal lengths of the
bodies keep its lists so short that their lengths are written in full. -/
theorem eq_of_encode_eq (hq : q.Within Shape.maxLength) (h : p.encode = q.encode) : p = q := by
  have hlength : p.encode.length
      ≤ sourcesShape.maxSize Shape.maxLength + constantsShape.maxSize Shape.maxLength + 16 := by
    rw [h]
    exact length_encode_le hq
  have hsize : p.encode.length < 256 ^ 8 := Nat.lt_of_le_of_lt hlength (by decide)
  have hwithin : q.Within p.encode.length := by
    rw [h]
    exact within_length_encode q
  have hbodies : p.encode ++ [] = q.encode ++ [] := by rw [h]
  exact (encode_append_inj hsize (within_length_encode p) hwithin hbodies).1

/-! ## Files -/

/-- Reading what comes after the magic bytes accepts exactly the version and a body. -/
theorem ofVersioned_eq_ok_iff :
    ofVersioned input = .ok p ↔ input = version ++ p.encode ∧ p.Within Shape.maxLength := by
  constructor
  · intro h
    obtain ⟨⟨found, body⟩, hfound, hbody⟩ := except_bind_eq_ok h
    obtain ⟨-, rfl⟩ := Shape.takeBytes_eq_ok_iff.mp (mapError_eq_ok_iff.mp hfound)
    dsimp only at hbody
    split at hbody
    · cases hbody
    · next hversion =>
        obtain ⟨⟨program, rest⟩, hprogram, hend⟩ := except_bind_eq_ok hbody
        obtain ⟨rfl, hwithin⟩ := decode_eq_ok_iff.mp (mapError_eq_ok_iff.mp hprogram)
        dsimp only at hend
        split at hend
        · next hrest =>
            cases hend
            rw [not_not.mp hversion, List.isEmpty_iff.mp hrest, List.append_nil]
            exact ⟨rfl, hwithin⟩
        · cases hend
  · rintro ⟨rfl, hwithin⟩
    have hfound : (Shape.takeBytes 3 (version ++ p.encode)).mapError DecodeError.codec
        = .ok (version, p.encode) :=
      mapError_eq_ok_iff.mpr (Shape.takeBytes_eq_ok_iff.mpr ⟨rfl, rfl⟩)
    have hbody : (decode p.encode).mapError DecodeError.codec = .ok (p, []) :=
      mapError_eq_ok_iff.mpr (decode_eq_ok_iff.mpr ⟨(List.append_nil _).symm, hwithin⟩)
    rw [ofVersioned, except_bind_of_ok hfound]
    dsimp only
    rw [if_neg (not_not.mpr rfl)]
    exact except_bind_of_ok hbody _

theorem take_magic (rest : List UInt8) : (magic ++ rest).take magic.length = magic :=
  List.take_left' rfl

/-- Reading a file accepts exactly the files of programs within the limit. -/
theorem ofBytes_eq_ok_iff :
    ofBytes input = .ok p ↔ input = p.toBytes ∧ p.Within Shape.maxLength := by
  rw [ofBytes, toBytes, List.append_assoc]
  constructor
  · intro h
    split at h
    · cases h
    · next hlength =>
      split at h
      · cases h
      · next hmagic =>
          obtain ⟨hrest, hwithin⟩ := ofVersioned_eq_ok_iff.mp h
          refine ⟨?_, hwithin⟩
          rw [← hrest, ← not_not.mp hmagic, List.length_take_of_le (Nat.not_lt.mp hlength),
            List.take_append_drop]
  · rintro ⟨rfl, hwithin⟩
    rw [if_neg (by simp), if_neg (not_not.mpr (take_magic _)), List.drop_left' rfl]
    exact ofVersioned_eq_ok_iff.mpr ⟨rfl, hwithin⟩

/-- A file that is not read as any program is refused with an error. -/
theorem ofBytes_eq_error (h : ∀ q, ofBytes input ≠ .ok q) : ∃ e, ofBytes input = .error e := by
  match hread : ofBytes input with
  | .ok q => exact absurd hread (h q)
  | .error e => exact ⟨e, rfl⟩

/-- A file that can be read is not the beginning of another one. -/
theorem eq_of_toBytes_isPrefix (hp : p.Within Shape.maxLength) (hq : q.Within Shape.maxLength)
    (h : p.toBytes <+: q.toBytes) : p = q := by
  obtain ⟨rest, h⟩ := h
  rw [toBytes, toBytes, List.append_assoc] at h
  have hbodies : p.encode ++ rest = q.encode ++ [] := by
    rw [List.append_cancel_left h, List.append_nil]
  exact (encode_append_inj (by decide) hp hq hbodies).1

/-- The binary format is exact and canonical.  The files that are read are those of the programs
within the limit of `2 ^ 20` items, each as the program that was written; so each such program
has one file.  A file cut short or with something after it is refused, and so is the file of a
program beyond the limit. -/
theorem binary_format_is_canonical :
    (∀ (b : List UInt8) (p : Program), ofBytes b = .ok p ↔ b = p.toBytes ∧ p.Within (2 ^ 20))
      ∧ (∀ p : Program, p.Within (2 ^ 20) → ofBytes p.toBytes = .ok p)
      ∧ (∀ (b b' : List UInt8) (p : Program),
          ofBytes b = .ok p → ofBytes b' = .ok p → b = b')
      ∧ (∀ (b b' : List UInt8) (p : Program), ofBytes b = .ok p → b' ≠ b →
          (b' <+: b ∨ b <+: b') → ∃ e, ofBytes b' = .error e)
      ∧ ∀ p : Program, ¬ p.Within (2 ^ 20) → ∃ e, ofBytes p.toBytes = .error e := by
  refine ⟨fun b p => ofBytes_eq_ok_iff, fun p hwithin => ofBytes_eq_ok_iff.mpr ⟨rfl, hwithin⟩,
    ?_, ?_, ?_⟩
  · intro b b' p hb hb'
    rw [(ofBytes_eq_ok_iff.mp hb).1, (ofBytes_eq_ok_iff.mp hb').1]
  · intro b b' p hb hne hpre
    apply ofBytes_eq_error
    intro q hb'
    obtain ⟨rfl, hp⟩ := ofBytes_eq_ok_iff.mp hb
    obtain ⟨rfl, hq⟩ := ofBytes_eq_ok_iff.mp hb'
    obtain hpre | hpre := hpre
    · exact hne (by rw [eq_of_toBytes_isPrefix hq hp hpre])
    · exact hne (by rw [eq_of_toBytes_isPrefix hp hq hpre])
  · intro p hwithin
    apply ofBytes_eq_error
    intro q hq
    obtain ⟨hbytes, hq⟩ := ofBytes_eq_ok_iff.mp hq
    have heq : p = q := eq_of_encode_eq hq (List.append_cancel_left hbytes)
    exact hwithin (heq ▸ hq)

/-- Half a program file is refused, and so is one with a byte too many. -/
theorem binary_format_is_canonical_of_one_source :
    ofBytes (toBytes ⟨[[0, 1]], [Word.one], 2, 3⟩) = .ok ⟨[[0, 1]], [Word.one], 2, 3⟩
      ∧ (∃ e, ofBytes ((toBytes ⟨[[0, 1]], [Word.one], 2, 3⟩).take 20) = .error e)
      ∧ ∃ e, ofBytes (toBytes ⟨[[0, 1]], [Word.one], 2, 3⟩ ++ [7]) = .error e := by
  obtain ⟨-, hread, -, hcut, -⟩ := binary_format_is_canonical
  have hfile := hread ⟨[[0, 1]], [Word.one], 2, 3⟩ (by decide)
  exact ⟨hfile, hcut _ _ _ hfile (by decide) (.inl (List.take_prefix _ _)),
    hcut _ _ _ hfile (by decide) (.inr (List.prefix_append _ _))⟩

end WordMachine.Program
