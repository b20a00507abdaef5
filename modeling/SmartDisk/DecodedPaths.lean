import SmartDisk.PathNames
import SmartDisk.Replace

/-!
# Where the decoded pictures are

`convert_format` of `script/imgtool.py` writes a decoded picture for every file of a
directory. `SmartStorageClient` and `EmDecoder` look for it, each under a path that
it computes from the path of the original. `rglob` lists what is below a directory;
making a directory, reading a picture and writing it may raise.
-/
namespace SmartDisk.DecodedPaths
open StorageSim PathNames Replace SmartClient

/-! ### `script/imgtool.py` -/

def formats : List Path :=
  [['.', 'j', 'p', 'g'], ['.', 'p', 'n', 'g'], ['.', 'p', 'p', 'm'], ['.', 'n', 'p', 'y']]

/-- The body of the loop. `save` stands for making the parent directory, reading and writing. -/
def convert_one (src_dir dest_dir : PurePath) (to_ext : Path)
    (save : PurePath → PurePath → Except SmartClient.Exn Unit) (ipath : PurePath) :
    Except SmartClient.Exn PurePath := do
  let rel ← ipath.relative_to src_dir
  let opath ← (dest_dir.div rel).with_suffix to_ext
  save ipath opath
  pure opath

/-- What the loop has written stays when it raises. -/
def convert (src_dir dest_dir : PurePath) (to_ext : Path)
    (save : PurePath → PurePath → Except SmartClient.Exn Unit) :
    List PurePath → List (PurePath × PurePath) × Except SmartClient.Exn Unit
  | [] => ([], .ok ())
  | ipath :: rest =>
      match convert_one src_dir dest_dir to_ext save ipath with
      | .error e => ([], .error e)
      | .ok opath =>
          let (written, result) := convert src_dir dest_dir to_ext save rest
          ((ipath, opath) :: written, result)

/-- The pairs of an original and the file written for it. -/
def convert_format (resolve : PurePath → PurePath) (rglob : PurePath → List Entry)
    (save : PurePath → PurePath → Except SmartClient.Exn Unit)
    (src_dir dest_dir to_ext from_ext : Path) :
    List (PurePath × PurePath) × Except SmartClient.Exn Unit :=
  let to_ext := if to_ext.head? = some '.' then to_ext else '.' :: to_ext
  if formats.contains to_ext then
    let src_dir := resolve (.parse src_dir)
    let dest_dir := PurePath.parse dest_dir
    convert src_dir dest_dir to_ext save
      (((rglob src_dir).map fun e => src_dir.div e.path).filter
        fun p => suffix p.name = from_ext)
  else ([], .error .AssertionError)

/-! ### `s3dexp/smart/emdecoder.py` -/

/-- `EmDecoder` with the directory of the decoded pictures. -/
structure EmDecoder extends DecoderQueue.EmDecoder where
  map_to_ppm_dir : Path

/-- The path that `decode` hands to `imread`. -/
def EmDecoder.ppm_path (self : EmDecoder) (cwd path : Path) : Except StorageSim.Exn Path := do
  if endswith path self.ext then
    let relpath ← DecoderQueue.relpath cwd path self.map_from_dir
    pure (replace ('.' :: self.ext) ['.', 'p', 'p', 'm'] (join self.map_to_ppm_dir relpath))
  else .error .AssertionError

def EmDecoder.decode {Arr : Type} (self : EmDecoder) (cwd : Path) (imread : Path → Option Arr)
    (arrival_time : ℚ) (path : Path) :
    Except StorageSim.Exn ((ℚ × Option Arr) × EmDecoder) := do
  let ppm_path ← self.ppm_path cwd path
  let arr := imread ppm_path
  let (eta, em) ← self.toEmDecoder.decode cwd arrival_time path
  pure ((eta, arr), { self with toEmDecoder := em })

/-- The picture that `decode` returns is the one under `ppm_path`. -/
theorem EmDecoder.decode_loads {Arr : Type} {self em : EmDecoder} {cwd path : Path}
    {imread : Path → Option Arr} {arrival_time eta : ℚ} {arr : Option Arr}
    (h : self.decode cwd imread arrival_time path = .ok ((eta, arr), em)) :
    ∃ ppm_path, self.ppm_path cwd path = .ok ppm_path ∧ arr = imread ppm_path := by
  unfold EmDecoder.decode at h
  cases hpath : self.ppm_path cwd path with
  | error err =>
      rw [hpath] at h
      cases h
  | ok ppm_path =>
      rw [hpath] at h
      change (self.toEmDecoder.decode cwd arrival_time path >>= _) = _ at h
      cases hdecode : self.toEmDecoder.decode cwd arrival_time path with
      | error err =>
          rw [hdecode] at h
          cases h
      | ok result =>
          rw [hdecode] at h
          cases h
          exact ⟨ppm_path, rfl, rfl⟩

/-! ### The three paths -/

def jpg : Path := ['.', 'j', 'p', 'g']
def ppm : Path := ['.', 'p', 'p', 'm']

/-- The name of the decoded picture. -/
def decodedName (n : Name) : Name :=
  ⟨stem n.1 ++ ppm, n.2.with_suffix (stem_leads n.1) (by decide) (by decide)⟩

/-- The entry of the decoded picture. -/
def decoded (e : Entry) : Entry := e.rename (decodedName e.name)

theorem decoded_injective {e e' : Entry} (he : suffix e.name.1 = suffix e'.name.1)
    (h : decoded e = decoded e') : e = e' := by
  obtain ⟨dirs, name⟩ := e
  obtain ⟨dirs', name'⟩ := e'
  have hdirs : dirs = dirs' := congrArg Entry.dirs h
  have hstem : stem name.1 = stem name'.1 :=
    List.append_cancel_right (congrArg (fun e : Entry => e.name.1) h)
  have hname : name = name' := by
    apply Subtype.ext
    rw [← stem_append name.1, ← stem_append name'.1, hstem, he]
  rw [hdirs, hname]

section Writer
variable {src_dir dest_dir : PurePath}
    {save : PurePath → PurePath → Except SmartClient.Exn Unit}

theorem convert_one_eq (e : Entry) :
    convert_one src_dir dest_dir ppm save (src_dir.div e.path) =
      (save (src_dir.div e.path) (dest_dir.div (decoded e).path)).map fun _ =>
        dest_dir.div (decoded e).path := by
  have hopath : (dest_dir.div e.path).with_suffix ppm = .ok (dest_dir.div (decoded e).path) :=
    e.with_suffix_path dest_dir (by decide) rfl (by decide) rfl
  unfold convert_one
  rw [e.relative_path]
  change ((dest_dir.div e.path).with_suffix ppm >>= _) = _
  rw [hopath]
  change (save _ _ >>= fun _ => _) = _
  cases save (src_dir.div e.path) (dest_dir.div (decoded e).path) <;> rfl

/-- Every file written is the decoded picture of a source. -/
theorem convert_written {sources : List Entry} {pair : PurePath × PurePath}
    (h : pair ∈ (convert src_dir dest_dir ppm save
      (sources.map fun e => src_dir.div e.path)).1) :
    ∃ e ∈ sources, pair = (src_dir.div e.path, dest_dir.div (decoded e).path) := by
  induction sources with
  | nil => cases h
  | cons e sources ih =>
      rw [List.map_cons, convert, convert_one_eq] at h
      cases hsave : save (src_dir.div e.path) (dest_dir.div (decoded e).path) with
      | error err =>
          rw [hsave] at h
          cases h
      | ok _ =>
          rw [hsave] at h
          rcases List.mem_cons.mp h with rfl | h
          · exact ⟨e, List.mem_cons_self, rfl⟩
          · obtain ⟨e', he', hpair⟩ := ih h
            exact ⟨e', List.mem_cons_of_mem _ he', hpair⟩

/-- As long as nothing raises every source is written. -/
theorem convert_complete (hsave : ∀ i o, save i o = .ok ()) (sources : List Entry) :
    convert src_dir dest_dir ppm save (sources.map fun e => src_dir.div e.path) =
      (sources.map fun e => (src_dir.div e.path, dest_dir.div (decoded e).path), .ok ()) := by
  induction sources with
  | nil => rfl
  | cons e sources ih =>
      rw [List.map_cons, convert, convert_one_eq, hsave, ih]
      rfl

end Writer

/-! ### What the readers open -/

section Readers
/-- `_load_decoded` opens the decoded picture, unless the name has only dots before its
suffix. -/
theorem load_decoded_opens {Arr : Type} (client : SmartStorageClient Arr)
    (imread : Path → Except SmartClient.Exn (Option Arr)) (e : Entry)
    (hjpg : suffix e.name.1 = jpg) :
    client.load_decoded imread (join client.map_from_dir e.rel) =
      imread (if (stem e.name.1).any (· ≠ '.') then join client.map_to_ppm_dir (decoded e).rel
        else join client.map_to_ppm_dir e.rel ++ ppm) := by
  obtain ⟨front, hfront, hjoin⟩ := join_rename client.map_to_ppm_dir e
  have hname : e.name.1 = stem e.name.1 ++ '.' :: ['j', 'p', 'g'] := by
    have := stem_append e.name.1
    rw [hjpg] at this
    exact this.symm
  have hsplit := splitext_name hfront e.name.2.no_slash (by decide) hname
  have hrel : join client.map_to_ppm_dir e.rel = front ++ e.name.1 := hjoin e.name
  unfold SmartStorageClient.load_decoded
  rw [relpath_join]
  change imread ((splitext (join client.map_to_ppm_dir e.rel)).1 ++ ppm) = _
  rw [hrel, hsplit, decoded, hjoin]
  split
  · rw [List.append_assoc]
    rfl
  · rfl

variable {em : EmDecoder}

/-- `decode` replaces `.jpg` wherever it stands in the joined path. -/
theorem ppm_path_eq (hext : em.ext = ['j', 'p', 'g']) (cwd : Path) (e : Entry)
    (hjpg : suffix e.name.1 = jpg) :
    ∃ front, (∀ name, join em.map_to_ppm_dir (e.rename name).rel = front ++ name.1) ∧
      em.ppm_path cwd (join em.map_from_dir e.rel) =
        .ok (replace jpg ppm (front ++ stem e.name.1) ++ ppm) := by
  obtain ⟨front, -, hjoin⟩ := join_rename em.map_to_ppm_dir e
  obtain ⟨below, -, hbelow⟩ := join_rename em.map_from_dir e
  have hname : e.name.1 = stem e.name.1 ++ jpg := by rw [← hjpg, stem_append]
  have hrel : join em.map_to_ppm_dir e.rel = front ++ stem e.name.1 ++ jpg := by
    rw [List.append_assoc, ← hname]
    exact hjoin e.name
  have hends : endswith (join em.map_from_dir e.rel) em.ext = true := by
    have hpath : join em.map_from_dir e.rel = below ++ e.name.1 := hbelow e.name
    rw [hext, hpath, hname]
    apply List.isSuffixOf_iff_suffix.mpr
    exact ⟨below ++ stem e.name.1 ++ ['.'], by simp only [jpg, List.append_assoc]; rfl⟩
  refine ⟨front, hjoin, ?_⟩
  unfold EmDecoder.ppm_path
  rw [if_pos hends, relpath_join, hext]
  change Except.ok (replace jpg ppm (join em.map_to_ppm_dir e.rel)) = _
  rw [hrel]
  exact congrArg Except.ok (replace_append (by decide) _)

end Readers

/-! ### A letter that shows the difference -/

theorem count_intercalate {x y : Char} (hxy : x ≠ y) (parts : List Path) :
    ([y].intercalate parts).count x = parts.flatten.count x := by
  induction parts with
  | nil => rfl
  | cons c parts ih =>
      by_cases hnil : parts = []
      · rw [hnil, List.intercalate_singleton]
        simp only [List.flatten_cons, List.flatten_nil, List.append_nil]
      · rw [List.intercalate_cons_of_ne_nil hnil, List.flatten_cons, List.append_assoc,
          List.count_append, List.count_append, List.count_append, ih,
          List.count_singleton, if_neg (by simpa using hxy.symm), Nat.zero_add]

theorem count_filter {x : Char} (hx : x ≠ '.') (parts : List Path) :
    (parts.filter fun c => c ≠ [] ∧ c ≠ ['.']).flatten.count x = parts.flatten.count x := by
  induction parts with
  | nil => rfl
  | cons c parts ih =>
      by_cases hc : c ≠ [] ∧ c ≠ ['.']
      · rw [List.filter_cons_of_pos (by simpa using hc), List.flatten_cons, List.flatten_cons,
          List.count_append, List.count_append, ih]
      · have hzero : c.count x = 0 := by
          apply List.count_eq_zero_of_not_mem
          intro hmem
          by_cases hnil : c = []
          · rw [hnil] at hmem
            cases hmem
          · have hdot : c = ['.'] := by
              by_contra hdot
              exact hc ⟨hnil, hdot⟩
            rw [hdot] at hmem
            exact hx (List.mem_singleton.mp hmem)
        rw [List.filter_cons_of_neg (by simpa using hc), List.flatten_cons, List.count_append,
          ih, hzero, Nat.zero_add]

/-- The parts of a path have the letters of its string. -/
theorem count_parse {x : Char} (hslash : x ≠ '/') (hdot : x ≠ '.') (p : Path) :
    (PurePath.parse p).parts.flatten.count x = p.count x := by
  unfold PurePath.parse
  rw [count_filter hdot, ← count_intercalate hslash, List.intercalate_splitOn]

/-- Replacing an occurrence of `.jpg` leads to another file. -/
theorem parse_replace_iff (front : Path) :
    PurePath.parse (replace jpg ppm front ++ ppm) = PurePath.parse (front ++ ppm) ↔
      ¬ jpg <:+: front := by
  constructor
  · intro h hinfix
    have hlt := @count_replace_lt _ _ jpg ppm 'j' (by decide) (by decide) front hinfix
    have hcount := congrArg (fun p => p.parts.flatten.count 'j') h
    simp only [count_parse (show 'j' ≠ '/' by decide) (show 'j' ≠ '.' by decide),
      List.count_append] at hcount
    omega
  · intro h
    rw [replace_of_absent h]

/-! ### Agreement -/

section Agreement
variable {resolve : PurePath → PurePath} {rglob : PurePath → List Entry}
    {save : PurePath → PurePath → Except SmartClient.Exn Unit}
    {map_from_dir map_to_ppm_dir : Path}

theorem convert_format_eq :
    convert_format resolve rglob save map_from_dir map_to_ppm_dir ppm jpg =
      convert (resolve (.parse map_from_dir)) (.parse map_to_ppm_dir) ppm save
        (((rglob (resolve (.parse map_from_dir))).filter fun e => suffix e.name.1 = jpg).map
          fun e => (resolve (.parse map_from_dir)).div e.path) := by
  have hppm : formats.contains ppm = true := by decide
  unfold convert_format
  simp only [show ppm.head? = some '.' from rfl, if_true, hppm, List.filter_map]
  congr 3
  funext e
  simp only [Function.comp_apply, Entry.name_path]

/-- What is written for an original, and for which originals. -/
theorem convert_format_written {ipath opath : PurePath}
    (h : (ipath, opath) ∈
      (convert_format resolve rglob save map_from_dir map_to_ppm_dir ppm jpg).1) :
    ∃ e, suffix e.name.1 = jpg ∧ ipath = (resolve (.parse map_from_dir)).div e.path ∧
      opath = (PurePath.parse map_to_ppm_dir).div (decoded e).path := by
  rw [convert_format_eq] at h
  obtain ⟨e, he, hpair⟩ := convert_written h
  obtain ⟨hipath, hopath⟩ := Prod.mk.inj hpair
  exact ⟨e, of_decide_eq_true (List.mem_filter.mp he).2, hipath, hopath⟩

variable {e : Entry}

theorem client_agrees_iff (client : SmartStorageClient PurePath)
    (hjpg : suffix e.name.1 = jpg) :
    client.load_decoded (fun p => .ok (some (.parse p))) (join client.map_from_dir e.rel) =
        .ok (some ((PurePath.parse client.map_to_ppm_dir).div (decoded e).path)) ↔
      ∃ c ∈ stem e.name.1, c ≠ '.' := by
  have hany : (stem e.name.1).any (· ≠ '.') = true ↔ ∃ c ∈ stem e.name.1, c ≠ '.' := by
    simp only [List.any_eq_true, decide_eq_true_eq]
  rw [load_decoded_opens client _ e hjpg, ← hany]
  by_cases h : (stem e.name.1).any (· ≠ '.') = true
  · rw [if_pos h, parse_join]
    exact iff_of_true rfl h
  · rw [if_neg h]
    refine iff_of_false (fun hopen => ?_) h
    have hother : Plain (e.name.1 ++ ppm) :=
      e.name.2.with_suffix (List.prefix_refl _) (by decide) (by decide)
    obtain ⟨front, -, hjoin⟩ := join_rename client.map_to_ppm_dir e
    have hrel : join client.map_to_ppm_dir e.rel ++ ppm =
        join client.map_to_ppm_dir (e.rename ⟨e.name.1 ++ ppm, hother⟩).rel := by
      rw [hjoin, ← List.append_assoc]
      exact congrArg (· ++ ppm) (hjoin e.name)
    rw [hrel, parse_join] at hopen
    have hsame := Entry.div_path_injective (Option.some.inj (Except.ok.inj hopen))
    have hname : e.name.1 ++ ppm = stem e.name.1 ++ ppm :=
      congrArg (fun e : Entry => e.name.1) hsame
    have hstem := List.append_cancel_right hname
    have hfull := stem_append e.name.1
    rw [← hstem, hjpg] at hfull
    exact absurd (List.append_right_eq_self.mp hfull) (by decide)

theorem decoder_agrees_iff {em : EmDecoder} (hext : em.ext = ['j', 'p', 'g']) (cwd : Path)
    (hjpg : suffix e.name.1 = jpg) :
    (em.ppm_path cwd (join em.map_from_dir e.rel)).map PurePath.parse =
        .ok ((PurePath.parse em.map_to_ppm_dir).div (decoded e).path) ↔
      ¬ jpg <:+: (join em.map_to_ppm_dir e.rel).take
        ((join em.map_to_ppm_dir e.rel).length - jpg.length) := by
  obtain ⟨front, hjoin, hpath⟩ := ppm_path_eq hext cwd e hjpg
  have hrel : join em.map_to_ppm_dir e.rel = front ++ stem e.name.1 ++ jpg := by
    rw [List.append_assoc, ← hjpg, stem_append]
    exact hjoin e.name
  have htake : (join em.map_to_ppm_dir e.rel).take
      ((join em.map_to_ppm_dir e.rel).length - jpg.length) = front ++ stem e.name.1 := by
    rw [hrel, List.length_append, Nat.add_sub_cancel, List.take_left]
  have hdecoded : (PurePath.parse em.map_to_ppm_dir).div (decoded e).path =
      PurePath.parse (front ++ stem e.name.1 ++ ppm) := by
    rw [← parse_join, decoded, hjoin, List.append_assoc]
    rfl
  rw [hpath, htake, hdecoded, ← parse_replace_iff]
  exact ⟨Except.ok.inj, congrArg Except.ok⟩

/-- When nothing raises, every original is written. -/
theorem convert_format_complete (hsave : ∀ i o, save i o = .ok ())
    (he : e ∈ rglob (resolve (.parse map_from_dir))) (hjpg : suffix e.name.1 = jpg) :
    ((resolve (.parse map_from_dir)).div e.path,
      (PurePath.parse map_to_ppm_dir).div (decoded e).path) ∈
        (convert_format resolve rglob save map_from_dir map_to_ppm_dir ppm jpg).1 := by
  rw [convert_format_eq, convert_complete hsave]
  exact List.mem_map_of_mem (List.mem_filter.mpr ⟨he, decide_eq_true hjpg⟩)

end Agreement

/-- The file written for an original is the one that both readers open, and no other original
has it. -/
structure Agree (client : SmartStorageClient PurePath) (em : EmDecoder)
    (written : List (PurePath × PurePath)) (e : Entry) (ipath opath : PurePath) : Prop where
  client_opens : client.load_decoded (fun p => .ok (some (.parse p)))
    (join client.map_from_dir e.rel) = .ok (some opath)
  decoder_opens : (em.ppm_path client.cwd (join client.map_from_dir e.rel)).map PurePath.parse =
    .ok opath
  distinct : ∀ pair ∈ written, pair.1 ≠ ipath → pair.2 ≠ opath

/-- The readers agree with the writer if and only if the name has more than dots before its
suffix and `.jpg` stands nowhere else in the joined path. -/
theorem readers_agree_iff {resolve : PurePath → PurePath} {rglob : PurePath → List Entry}
    {save : PurePath → PurePath → Except SmartClient.Exn Unit}
    {client : SmartStorageClient PurePath} {em : EmDecoder} {e : Entry} {opath : PurePath}
    (hext : em.ext = ['j', 'p', 'g']) (hfrom : em.map_from_dir = client.map_from_dir)
    (hto : em.map_to_ppm_dir = client.map_to_ppm_dir)
    (h : ((resolve (.parse client.map_from_dir)).div e.path, opath) ∈ (convert_format resolve
      rglob save client.map_from_dir client.map_to_ppm_dir ppm jpg).1) :
    Agree client em (convert_format resolve rglob save client.map_from_dir
        client.map_to_ppm_dir ppm jpg).1 e
        ((resolve (.parse client.map_from_dir)).div e.path) opath ↔
      (∃ c ∈ stem e.name.1, c ≠ '.') ∧
        ¬ jpg <:+: (join client.map_to_ppm_dir e.rel).take
          ((join client.map_to_ppm_dir e.rel).length - jpg.length) := by
  obtain ⟨e', hjpg, hipath, rfl⟩ := convert_format_written h
  obtain rfl := Entry.div_path_injective hipath
  have hclient := client_agrees_iff client hjpg
  have hdecoder := decoder_agrees_iff hext client.cwd hjpg
  rw [hfrom, hto] at hdecoder
  constructor
  · intro hagree
    exact ⟨hclient.mp hagree.client_opens, hdecoder.mp hagree.decoder_opens⟩
  · rintro ⟨hletter, hinfix⟩
    refine ⟨hclient.mpr hletter, hdecoder.mpr hinfix, ?_⟩
    intro pair hpair hne heq
    obtain ⟨e', hjpg', hipath', hopath'⟩ := convert_format_written hpair
    have hsame := Entry.div_path_injective (hopath'.symm.trans heq)
    rw [decoded_injective (hjpg'.trans hjpg.symm) hsame] at hipath'
    exact hne hipath'

/-! ### Two albums -/

def albumClient : SmartStorageClient PurePath := ⟨['/'], ['/', 's'], ['/', 'p'], none⟩

def albumDecoder : EmDecoder where
  ext := ['j', 'p', 'g']
  map_from_dir := ['/', 's']
  lut _ := some 1
  next_available_time := 0
  map_to_ppm_dir := ['/', 'p']

/-- The files written when one original lies in the source directory. -/
def album (e : Entry) : List (PurePath × PurePath) :=
  (convert_format id (fun _ => [e]) (fun _ _ => .ok ()) ['/', 's'] ['/', 'p'] ppm jpg).1

theorem plain_folder : Plain "cats.2".toList :=
  ⟨by decide, by decide, by decide, by decide⟩

theorem plain_dotted : Plain "my.cat..1.jpg".toList :=
  ⟨by decide, by decide, by decide, by decide⟩

theorem plain_twice : Plain ['a', '.', 'j', 'p', 'g', '.', 'j', 'p', 'g'] :=
  ⟨by decide, by decide, by decide, by decide⟩

def dotted : Entry := ⟨[⟨_, plain_folder⟩], ⟨_, plain_dotted⟩⟩
def twice : Entry := ⟨[], ⟨_, plain_twice⟩⟩

/-- Dots elsewhere in the path do no harm. -/
theorem readers_agree_dotted : Agree albumClient albumDecoder (album dotted) dotted
    ⟨true, ["s".toList, "cats.2".toList, "my.cat..1.jpg".toList]⟩
    ⟨true, ["p".toList, "cats.2".toList, "my.cat..1.ppm".toList]⟩ :=
  (@readers_agree_iff id (fun _ => [dotted]) (fun _ _ => .ok ()) albumClient albumDecoder dotted _
    rfl rfl rfl (by decide +kernel)).mpr ⟨⟨'m', by decide +kernel, by decide⟩, by decide +kernel⟩

/-- `a.jpg.jpg` is written as `a.jpg.ppm`, and `EmDecoder` opens `a.ppm.ppm`. -/
theorem twice_disagrees :
    (⟨true, [['s'], ['a', '.', 'j', 'p', 'g', '.', 'j', 'p', 'g']]⟩,
      ⟨true, [['p'], ['a', '.', 'j', 'p', 'g', '.', 'p', 'p', 'm']]⟩) ∈ album twice ∧
    ¬ Agree albumClient albumDecoder (album twice) twice
      ⟨true, [['s'], ['a', '.', 'j', 'p', 'g', '.', 'j', 'p', 'g']]⟩
      ⟨true, [['p'], ['a', '.', 'j', 'p', 'g', '.', 'p', 'p', 'm']]⟩ := by
  refine ⟨by decide +kernel, fun h => ?_⟩
  have hopens : (albumDecoder.ppm_path ['/'] (join ['/', 's'] twice.rel)).map PurePath.parse =
      .ok ⟨true, [['p'], ['a', '.', 'p', 'p', 'm', '.', 'p', 'p', 'm']]⟩ := rfl
  have hsame := Except.ok.inj (hopens.symm.trans h.decoder_opens)
  cases hsame

end SmartDisk.DecodedPaths
