import EffectTorch.Safetensors.Header

/-!
# Which headers are accepted

`parse_header` and `parse_metadata` of `napi/src/safetensors.rs`, and the files that
`parse_header` accepts.

Results:
1. `parseHeader_ok`: an accepted header, field by field.
2. `parseHeader_accepts_iff`: exactly which files are accepted.
-/

namespace EffectTorch
open List Lib

variable {δ : Type} (json : JsonText) (dtypes : DtypeCodec δ)

def parseMetadataMember (member : String × Json) : Fallible String (String × String) := do
  let value ← okOr member.2.asStr
    ("safetensors: metadata value for " ++ member.1.quote ++ " must be a string")
  return (member.1, value)

def parseMetadata : Option Json → Fallible String (List (String × String))
  | none => .ok []
  | some (.obj object) => (JsonMap.sorted object).mapM parseMetadataMember
  | some _ => fail "safetensors: __metadata__ must be a JSON object"

/-- The turn of `parse_header` that takes one member of the header. -/
def readMember (state : Option Json × List (String × HeaderEntry δ)) (member : String × Json) :
    Fallible String (Option Json × List (String × HeaderEntry δ)) := do
  let (key, value) := member
  if key = "__metadata__" then return (some value, state.2)
  else
    let info ← parseTensorInfo dtypes value
    return (state.1, state.2 ++ [(key, info)])

def parseHeader (path : String) (file : List UInt8) : Fallible String (ParsedHeader δ) := do
  rejectIf (file.length < 8)
    ("safetensors: " ++ path.quote ++ " is shorter than the 8-byte header length")
  let headerLen := fromLe (file.take 8)
  rejectIf (maxHeaderBytes < headerLen) "safetensors: header exceeds the 100 MB format limit"
  let dataStart ← okOr (checkedAdd headerLen 8) "safetensors: header length overflows"
  rejectIf (file.length < dataStart)
    ("safetensors: header length " ++ toString headerLen ++ " exceeds the " ++
      toString file.length ++ "-byte file " ++ path.quote)
  let object ← parseUniqueObject json ((file.drop 8).take headerLen)
  let (metadataValue, entries) ← object.sorted.foldlM (readMember dtypes) (none, [])
  let metadata ← parseMetadata metadataValue
  let dataLen := file.length - dataStart
  validateEntries dtypes entries dataLen path
  return ⟨dataStart, entries, metadata⟩

/-! ## Members -/

/-- A member names a tensor and describes it. -/
def NamesTensor (member : String × Json) (named : String × HeaderEntry δ) : Prop :=
  named.1 = member.1 ∧ DescribesTensor dtypes member.2 named.2

/-- An object whose values are strings. -/
def IsStringMap (value : Json) : Prop :=
  ∃ strings, value = .obj strings ∧
    ∀ key member, (key, member) ∈ strings → ∃ s, member = .str s

/-- The members of a header: one for each tensor, and perhaps one with the metadata of
the archive. -/
structure HeaderMembers (members : JsonMap) (entries : List (String × HeaderEntry δ)) :
    Prop where
  tensors : List.Forall₂ (NamesTensor dtypes)
    (members.filter fun member => member.1 ≠ "__metadata__") entries
  metadata : ∀ value, ("__metadata__", value) ∈ members → IsStringMap value

theorem parseMetadata_returns {value : Json} :
    (∃ metadata, parseMetadata (some value) = .ok metadata) ↔ IsStringMap value := by
  cases value with
  | obj object =>
    rw [parseMetadata]
    constructor
    · rintro ⟨metadata, h⟩
      refine ⟨object, rfl, fun key member hmem => ?_⟩
      obtain ⟨_, _, hmember⟩ := mapM_mem_left h ((JsonMap.sorted_perm object).mem_iff.mpr hmem)
      obtain ⟨s, hs, _⟩ := bind_ok.mp hmember
      cases member with
      | str value => exact ⟨value, rfl⟩
      | _ => exact nomatch okOr_ok.mp hs
    · rintro ⟨strings, heq, h⟩
      obtain rfl := Json.obj.inj heq
      refine mapM_total fun member hmem => ?_
      obtain ⟨s, hs⟩ := h member.1 member.2 ((JsonMap.sorted_perm object).mem_iff.mp hmem)
      exact ⟨(member.1, s), by rw [parseMetadataMember, hs]; rfl⟩
  | _ => exact ⟨(fun h => nomatch h.choose_spec), (fun h => nomatch h.choose_spec.1)⟩

/-- The loop over the members: it keeps the value of the metadata and the descriptions
of the tensors. -/
theorem readMember_loop {members : JsonMap} (hnodup : (members.map Prod.fst).Nodup)
    {metadataValue : Option Json} {entries : List (String × HeaderEntry δ)}
    {result : Option Json × List (String × HeaderEntry δ)} :
    members.foldlM (readMember dtypes) (metadataValue, entries) = .ok result ↔
      result.1 = (members.lookup "__metadata__").or metadataValue ∧
      ∃ added, result.2 = entries ++ added ∧ List.Forall₂ (NamesTensor dtypes)
        (members.filter fun member => member.1 ≠ "__metadata__") added := by
  induction members generalizing metadataValue entries with
  | nil => simp [pure, Except.pure, Prod.ext_iff, eq_comm]
  | cons member members ih =>
    obtain ⟨key, value⟩ := member
    obtain ⟨hkey, hrest⟩ := nodup_cons.mp hnodup
    rw [foldlM_cons, bind_ok, lookup_cons]
    rcases Decidable.eq_or_ne key "__metadata__" with rfl | hne
    · -- no later member has this key
      have hlookup : members.lookup "__metadata__" = none := by
        rw [Option.eq_none_iff_forall_ne_some]
        intro v hv
        exact hkey (mem_map.mpr ⟨_, (lookup_eq_some_iff_mem hrest).mp hv, rfl⟩)
      simp [readMember, ih hrest, hlookup, pure, Except.pure]
    · have hkey' : ("__metadata__" == key) = false := beq_false_of_ne hne.symm
      rw [filter_cons_of_pos (by simpa using hne)]
      simp only [readMember, if_neg hne, hkey', bind_ok, parseTensorInfo_ok, pure, Except.pure,
        Except.ok.injEq, forall₂_cons_left_iff]
      constructor
      · rintro ⟨_, ⟨info, hinfo, rfl⟩, h⟩
        obtain ⟨hvalue, added, hadded, hall⟩ := (ih hrest).mp h
        refine ⟨hvalue, (key, info) :: added, ?_, (key, info), added, ⟨rfl, hinfo⟩, hall, rfl⟩
        rw [hadded, append_assoc, singleton_append]
      · rintro ⟨hvalue, _, hadded, ⟨_, info⟩, added, ⟨rfl, hinfo⟩, hall, rfl⟩
        refine ⟨_, ⟨info, hinfo, rfl⟩, (ih hrest).mpr ⟨hvalue, added, ?_, hall⟩⟩
        rw [hadded, append_assoc, singleton_append]

/-! ## Frame -/

/-- The file is the length of a text, the text, which is that of an object, and
`dataLen` bytes of data. -/
def HeaderText (file : List UInt8) (members : JsonMap) (dataLen : Nat) : Prop :=
  ∃ text data, file = toLe 8 text.length ++ text ++ data ∧ text.length ≤ maxHeaderBytes ∧
    data.length = dataLen ∧ json.Reads text (.obj members)

/-- The checks of the frame pass exactly on framed files. -/
theorem headerText_iff {file : List UInt8} {members : JsonMap} {dataLen : Nat} :
    HeaderText json file members dataLen ↔
      8 ≤ file.length ∧ fromLe (file.take 8) ≤ maxHeaderBytes ∧
      fromLe (file.take 8) + 8 + dataLen = file.length ∧
      json.Reads ((file.drop 8).take (fromLe (file.take 8))) (.obj members) := by
  constructor
  · rintro ⟨text, data, rfl, hlimit, rfl, hreads⟩
    have hwidth : text.length < 256 ^ 8 := Nat.lt_of_le_of_lt hlimit (by decide)
    have hlen : (toLe 8 text.length ++ text ++ data).take 8 = toLe 8 text.length := by
      rw [append_assoc, take_left' (length_toLe _ _)]
    have htext : ((toLe 8 text.length ++ text ++ data).drop 8).take text.length = text := by
      rw [append_assoc, drop_left' (length_toLe _ _), take_left' rfl]
    rw [hlen, fromLe_toLe hwidth, htext]
    refine ⟨?_, hlimit, ?_, hreads⟩
    · rw [append_assoc, length_append, length_toLe]
      exact Nat.le_add_right _ _
    · rw [length_append, length_append, length_toLe, Nat.add_comm _ 8]
  · rintro ⟨hlen, hlimit, htotal, hreads⟩
    have htake : (file.take 8).length = 8 := length_take_of_le hlen
    have hbody : fromLe (file.take 8) + dataLen = (file.drop 8).length := by
      rw [length_drop, ← htotal, Nat.add_right_comm, Nat.add_sub_cancel]
    have htext : ((file.drop 8).take (fromLe (file.take 8))).length = fromLe (file.take 8) :=
      length_take_of_le (hbody ▸ Nat.le_add_right _ _)
    refine ⟨_, (file.drop 8).drop (fromLe (file.take 8)), ?_, by rwa [htext], ?_, hreads⟩
    · have hbytes := toLe_fromLe (file.take 8)
      rw [htake] at hbytes
      rw [htext, hbytes, append_assoc, take_append_drop, take_append_drop]
    · rw [length_drop, ← hbody, Nat.add_sub_cancel_left]

/-! ## Acceptance -/

/-- The geometry of the entries: their lengths are those of their shapes, and some
arrangement of them tiles the data section. -/
structure GeometryOk (entries : List (String × HeaderEntry δ)) (dataLen : Nat) : Prop where
  lengths : ∀ named ∈ entries,
    HasByteLength dtypes named.2.dtype named.2.shape (named.2.«end» - named.2.begin)
  tiles : TileData entries dataLen

theorem GeometryOk.of_perm {entries entries' : List (String × HeaderEntry δ)} {dataLen : Nat}
    (hperm : entries.Perm entries') (h : GeometryOk dtypes entries dataLen) :
    GeometryOk dtypes entries' dataLen := by
  obtain ⟨ranges, hranges, htiles⟩ := h.tiles
  exact ⟨fun named hmem => h.lengths named (hperm.mem_iff.mpr hmem),
    ranges, hranges.trans (hperm.map _), htiles⟩

/-- Every range of a tiling ends inside the data section. -/
theorem GeometryOk.end_le {entries : List (String × HeaderEntry δ)} {dataLen : Nat}
    (h : GeometryOk dtypes entries dataLen) {named : String × HeaderEntry δ}
    (hmem : named ∈ entries) : named.2.«end» ≤ dataLen := by
  obtain ⟨ranges, hranges, htiles⟩ := h.tiles
  exact (htiles.bounds (hranges.mem_iff.mpr (mem_map_of_mem hmem))).2.2

variable {path : String} {file : List UInt8}

/-- An accepted header, field by field. -/
theorem parseHeader_ok {header : ParsedHeader δ} :
    parseHeader json dtypes path file = .ok header ↔
      ∃ members dataLen, HeaderText json file members dataLen ∧
        (Json.obj members).UniqueKeys ∧ header.dataStart + dataLen = file.length ∧
        List.Forall₂ (NamesTensor dtypes)
          (members.sorted.filter fun member => member.1 ≠ "__metadata__") header.entries ∧
        parseMetadata (members.lookup "__metadata__") = .ok header.metadata ∧
        GeometryOk dtypes header.entries dataLen := by
  have hsorted : ∀ {members : JsonMap}, (Json.obj members).UniqueKeys →
      (members.sorted.map Prod.fst).Nodup ∧
        members.sorted.lookup "__metadata__" = members.lookup "__metadata__" := by
    intro members hunique
    cases hunique with
    | obj hkeys _ =>
      refine ⟨members.sorted_nodup hkeys, Option.ext fun value => ?_⟩
      rw [lookup_eq_some_iff_mem (members.sorted_nodup hkeys), lookup_eq_some_iff_mem hkeys,
        members.sorted_perm.mem_iff]
  simp only [parseHeader, bind_ok, rejectIf_ok, okOr_ok, checkedAdd_some, parseUniqueObject_ok,
    validateEntries_ok, headerText_iff, Nat.not_lt, pure, Except.pure, Except.ok.injEq]
  constructor
  · rintro ⟨_, hlen, _, hlimit, _, ⟨_, rfl⟩, _, hfits, members, ⟨hreads, hunique⟩, ⟨value, entries⟩,
      hloop, metadata, hmetadata, _, ⟨hlengths, htiles⟩, rfl⟩
    obtain ⟨hnodup, hlookup⟩ := hsorted hunique
    obtain ⟨hvalue, added, hadded, hall⟩ := (readMember_loop dtypes hnodup).mp hloop
    obtain rfl : entries = added := hadded
    obtain rfl : value = members.lookup "__metadata__" := by
      rw [← hlookup]
      exact hvalue.trans Option.or_none
    exact ⟨members, _, ⟨hlen, hlimit, Nat.add_sub_of_le hfits, hreads⟩, hunique,
      Nat.add_sub_of_le hfits, hall, hmetadata, hlengths, htiles⟩
  · rintro ⟨members, dataLen, ⟨hlen, hlimit, htotal, hreads⟩, hunique, hstart, hall, hmetadata,
      hgeometry⟩
    obtain ⟨hnodup, hlookup⟩ := hsorted hunique
    have hdata : header.dataStart = fromLe (file.take 8) + 8 :=
      Nat.add_right_cancel (hstart.trans htotal.symm)
    have hrest : file.length - (fromLe (file.take 8) + 8) = dataLen := by
      rw [← htotal, Nat.add_sub_cancel_left]
    have hnoOverflow : fromLe (file.take 8) + 8 ≤ usizeMax :=
      Nat.le_trans (Nat.add_le_add_right hlimit 8) (by decide)
    refine ⟨(), hlen, (), hlimit, _, ⟨hnoOverflow, rfl⟩, (), htotal ▸ Nat.le_add_right _ _,
      members, ⟨hreads, hunique⟩, (members.lookup "__metadata__", header.entries), ?_,
      header.metadata, hmetadata, (), ?_, ?_⟩
    · refine (readMember_loop dtypes hnodup).mpr ⟨?_, header.entries, rfl, hall⟩
      rw [Option.or_none, hlookup]
    · rw [hrest]
      exact ⟨hgeometry.lengths, hgeometry.tiles⟩
    · rw [← hdata]

/-- A header is accepted exactly when its keys are unique, each entry has the length of
its shape and the entries tile the data section. The ranges of an accepted header are
inside the file. -/
theorem parseHeader_accepts_iff (json : JsonText) (dtypes : DtypeCodec δ) (path : String)
    (file : List UInt8) :
    ((∃ header, parseHeader json dtypes path file = .ok header) ↔
      ∃ members dataLen entries, HeaderText json file members dataLen ∧
        HeaderMembers dtypes members entries ∧ (Json.obj members).UniqueKeys ∧
        (∀ named ∈ entries,
          HasByteLength dtypes named.2.dtype named.2.shape (named.2.«end» - named.2.begin)) ∧
        TileData entries dataLen) ∧
    ∀ header, parseHeader json dtypes path file = .ok header →
      ∀ named ∈ header.entries, header.dataStart + named.2.«end» ≤ file.length := by
  refine ⟨⟨?_, ?_⟩, fun header h named hmem => ?_⟩
  · rintro ⟨header, h⟩
    obtain ⟨members, dataLen, htext, hunique, _, hall, hmetadata, hgeometry⟩ :=
      (parseHeader_ok json dtypes).mp h
    have hfilter := members.sorted_perm.filter fun member => member.1 ≠ "__metadata__"
    obtain ⟨entries, hentries, hperm⟩ := perm_comp_forall₂ hfilter.symm hall
    have hgeometry := hgeometry.of_perm dtypes hperm.symm
    refine ⟨members, dataLen, entries, htext, ⟨hentries, fun value hmem => ?_⟩, hunique,
      hgeometry.lengths, hgeometry.tiles⟩
    cases hunique with
    | obj hkeys _ =>
      rw [(lookup_eq_some_iff_mem hkeys).mpr hmem] at hmetadata
      exact parseMetadata_returns.mp ⟨_, hmetadata⟩
  · rintro ⟨members, dataLen, entries, htext, hmembers, hunique, hlengths, htiles⟩
    have hfilter := members.sorted_perm.filter fun member => member.1 ≠ "__metadata__"
    obtain ⟨entries', hall, hperm⟩ := perm_comp_forall₂ hfilter hmembers.tensors
    obtain ⟨metadata, hmetadata⟩ : ∃ metadata,
        parseMetadata (members.lookup "__metadata__") = .ok metadata := by
      cases hlookup : members.lookup "__metadata__" with
      | none => exact ⟨[], rfl⟩
      | some value =>
        cases hunique with
        | obj hkeys _ =>
          exact parseMetadata_returns.mpr
            (hmembers.metadata value ((lookup_eq_some_iff_mem hkeys).mp hlookup))
    have htotal := ((headerText_iff json).mp htext).2.2.1
    exact ⟨⟨fromLe (file.take 8) + 8, entries', metadata⟩, (parseHeader_ok json dtypes).mpr
      ⟨members, dataLen, htext, hunique, htotal, hall, hmetadata,
        GeometryOk.of_perm dtypes hperm.symm ⟨hlengths, htiles⟩⟩⟩
  · obtain ⟨members, dataLen, _, _, htotal, _, _, hgeometry⟩ := (parseHeader_ok json dtypes).mp h
    rw [← htotal]
    exact Nat.add_le_add_left (hgeometry.end_le dtypes hmem) _

end EffectTorch
