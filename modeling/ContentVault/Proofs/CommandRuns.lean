import ContentVault.Proofs.ConfigFiles
import ContentVault.Proofs.DatabaseHome
import ContentVault.Proofs.DirectHome

/-!
# Runs of the program

Files are stored and values are checked by one run of the program after another.  Between
them anything may change but the home of the values, and the configuration may come to ask
for chunks of another size.
-/

namespace ContentVault.Home

open BlobStore (NoCollision keyOf)
open Command (IsPlain configOptions readSize?)
open Digest (Algorithm)

variable {home : Home} {done : List Bytes} {start tree : FileTree}

def Configures (home : Home) (tree : FileTree) (config : String) : Prop :=
  ∃ loaded, Config.load config tree = .ok loaded ∧ home.Describes loaded

/-- Runs of the program one after the other, and what happens to the tree in between.  These
are the contents of the files that were stored, in order. -/
inductive Runs (home : Home) (start : FileTree) : List Bytes → FileTree → Prop where
  | start : Runs home start [] start
  | stored {done : List Bytes} {tree : FileTree} {content : Bytes} (option config file : String)
      (hruns : Runs home start done tree) (hoption : option ∈ configOptions)
      (hplain : ∀ argument ∈ [config, file], IsPlain argument)
      (hconfig : home.Configures tree config) (hfile : home.Offers tree file content)
      (hfits : content.length < UInt64.size) :
      Runs home start (done ++ [content]) (runProgram [option, config, "store", file] tree).2
  | checked {done : List Bytes} {tree : FileTree} (option config key digest size : String)
      (hruns : Runs home start done tree) (hoption : option ∈ configOptions)
      (hplain : ∀ argument ∈ [config, key, digest, size], IsPlain argument)
      (hconfig : home.Configures tree config) :
      Runs home start done (runProgram [option, config, "check", key, digest, size] tree).2
  | changed {done : List Bytes} {tree changed : FileTree} (hruns : Runs home start done tree)
      (hspared : home.Spared tree changed) : Runs home start done changed

/-- How the program ends once these values were stored. -/
structure Agrees (home : Home) (done : List Bytes) (tree : FileTree) : Prop where
  /-- A file is stored under the lowercase hexadecimal form of its SHA-1 digest, and its line
  tells the key, the URI and the size. -/
  stores : ∀ (option config file : String) (content : Bytes), option ∈ configOptions →
    (∀ argument ∈ [config, file], IsPlain argument) → home.Configures tree config →
    home.Offers tree file content → content.length < UInt64.size →
    ∃ loaded backend v, Config.load config tree = .ok loaded ∧
      loaded.openBackend (.ofTree tree) = (.ok backend, v) ∧
      (runProgram [option, config, "store", file] tree).1 =
        ⟨0, storedLine content backend.location ++ "\n", none⟩
  /-- A value that was stored is judged by its digest, under any algorithm in any spelling, and
  by its size. -/
  judges : ∀ (option config uri size spelling : String) (value digest : Bytes)
    (algorithm : Algorithm) (count : UInt64), value ∈ done → option ∈ configOptions →
    (∀ argument ∈ [config, (keyOf value).text, uri, size], IsPlain argument) →
    home.Configures tree config → DigestUri.parse uri = .ok (.ofDigest spelling digest) →
    Algorithm.ofSpelling? spelling = some algorithm → readSize? size = some count →
    (runProgram [option, config, "check", (keyOf value).text, uri, size] tree).1.Judges
      (digest = algorithm.hash value) (count.toNat = value.length)
  /-- Under any other key there is nothing to be judged. -/
  misses : ∀ (option config key digest size : String) (expected : DigestUri) (count : UInt64),
    (∀ value ∈ done, key ≠ (keyOf value).text) → option ∈ configOptions →
    (∀ argument ∈ [config, key, digest, size], IsPlain argument) →
    home.Configures tree config → DigestUri.parse digest = .ok expected →
    readSize? size = some count →
    ∃ message, (runProgram [option, config, "check", key, digest, size] tree).1 =
      ⟨1, "", some message⟩

/-- A configured home can be opened, and serves what it has. -/
theorem Holds.exists_serves {config : Config} (hholds : home.Holds done tree)
    (hdescribes : home.Describes config) :
    ∃ backend v, config.openBackend (.ofTree tree) = (.ok backend, v) ∧
      home.Serves done tree backend v := by
  obtain ⟨⟨made, hstands, hkeeps⟩, hfits⟩ := hholds
  obtain ⟨backend⟩ := config
  cases home with
  | database path place =>
    obtain ⟨chunkSize, properties, hbuffer, rfl⟩ := hdescribes
    obtain ⟨rfl, hplace⟩ := hstands
    obtain ⟨contents, hcontents, hall⟩ := hkeeps
    exact ⟨_, _, openBackend_database hplace hcontents, serves_database hplace hbuffer hall hfits⟩
  | direct root place =>
    obtain rfl := hdescribes
    exact ⟨_, _, openBackend_direct hstands.2.1, serves_direct hstands hkeeps hfits⟩

theorem configures_of_openFile {config : String} {content : Bytes} {loaded : Config}
    (hopen : tree.openFile config = .ok (some content))
    (hdecode : Config.decode content = .ok loaded) (hdescribes : home.Describes loaded) :
    home.Configures tree config :=
  ⟨loaded, Config.load_eq_ok_iff.2 ⟨content, hopen, hdecode⟩, hdescribes⟩

theorem ne_empty_of_load {config : String} {loaded : Config}
    (hload : Config.load config tree = .ok loaded) : config ≠ "" := by
  obtain ⟨content, hopen, -⟩ := Config.load_eq_ok_iff.1 hload
  exact FileTree.ne_empty_of_openFile hopen

section Steps

variable {option config : String}

/-- A run that stores a file. -/
theorem Holds.runProgram_store {file : String} {content : Bytes} (hholds : home.Holds done tree)
    (hoption : option ∈ configOptions) (hplain : ∀ argument ∈ [config, file], IsPlain argument)
    (hconfig : home.Configures tree config) (hfile : home.Offers tree file content)
    (hfits : content.length < UInt64.size) :
    ∃ loaded backend v stored, Config.load config tree = .ok loaded ∧
      loaded.openBackend (.ofTree tree) = (.ok backend, v) ∧
      runProgram [option, config, "store", file] tree =
        (⟨0, storedLine content backend.location ++ "\n", none⟩, stored) ∧
      home.LeavesOthers tree stored ∧
      (NoCollision (done ++ [content]) → home.Holds (done ++ [content]) stored) := by
  obtain ⟨loaded, hload, hdescribes⟩ := hconfig
  obtain ⟨backend, v, hopen, hserves⟩ := hholds.exists_serves hdescribes
  obtain ⟨source', v', hstore, hleaves, hkept⟩ := hserves.stores content hfits
  have hparse := Command.parse?_store hoption hplain (ne_empty_of_load hload)
    (FileTree.ne_empty_of_openFile hfile.opens)
  have hagain := (hfile.of_leavesOthers hserves.opened).opens
  have hstored := Command.storeFile_of_store hfile.opens hopen hagain hstore hfits
  refine ⟨loaded, backend, v, v'.closeAll.tree, hload, hopen, ?_, hleaves, hkept⟩
  rw [runProgram_of_parse hparse hload]
  simp only [hstored]
  rfl

/-- A check whose digest and size can be read is carried out. -/
theorem runProgram_of_check {key digest size : String} {loaded : Config} {expected : DigestUri}
    {count : UInt64} (hoption : option ∈ configOptions)
    (hplain : ∀ argument ∈ [config, key, digest, size], IsPlain argument)
    (hload : Config.load config tree = .ok loaded) (hdigest : DigestUri.parse digest = .ok expected)
    (hsize : readSize? size = some count) :
    runProgram [option, config, "check", key, digest, size] tree =
      (.ofResult
          ((Command.checkValue loaded ⟨key⟩ expected count (.ofTree tree)).1.mapError .reported),
        (Command.checkValue loaded ⟨key⟩ expected count (.ofTree tree)).2.closeAll.tree) := by
  have hparse := Command.parse?_check hoption hplain (ne_empty_of_load hload)
  simp only [hdigest, hsize] at hparse
  exact runProgram_of_parse hparse hload

/-- A run that checks a value, or fails to, leaves the home as it was. -/
theorem Holds.runProgram_check {key digest size : String} (hholds : home.Holds done tree)
    (hoption : option ∈ configOptions)
    (hplain : ∀ argument ∈ [config, key, digest, size], IsPlain argument)
    (hconfig : home.Configures tree config) :
    home.LeavesOthers tree (runProgram [option, config, "check", key, digest, size] tree).2 ∧
      home.Holds done (runProgram [option, config, "check", key, digest, size] tree).2 := by
  obtain ⟨loaded, hload, hdescribes⟩ := hconfig
  obtain ⟨backend, v, hopen, hserves⟩ := hholds.exists_serves hdescribes
  have hparse := Command.parse?_check hoption hplain (ne_empty_of_load hload)
  cases hdigest : DigestUri.parse digest with
  | error error =>
    rw [hdigest] at hparse
    rw [runProgram, hparse]
    exact ⟨.refl tree, hholds⟩
  | ok expected =>
    cases hsize : readSize? size with
    | none =>
      rw [hdigest, hsize] at hparse
      rw [runProgram, hparse]
      exact ⟨.refl tree, hholds⟩
    | some count =>
      rw [runProgram_of_check hoption hplain hload hdigest hsize]
      dsimp only
      rcases Command.checkValue_leaves ⟨key⟩ expected count hopen with heq | hreads
      · rw [heq, Vault.tree_closeAll_of_nil rfl]
        exact ⟨.refl tree, hholds⟩
      · exact hserves.stays _ hreads

theorem Holds.agrees (hholds : home.Holds done tree) : home.Agrees done tree where
  stores := by
    intro option config file content hoption hplain hconfig hfile hfits
    obtain ⟨loaded, backend, v, stored, hload, hopen, hrun, -⟩ :=
      hholds.runProgram_store hoption hplain hconfig hfile hfits
    exact ⟨loaded, backend, v, hload, hopen, congrArg Prod.fst hrun⟩
  judges := by
    intro option config uri size spelling value digest algorithm count hvalue hoption hplain
      hconfig hdigest hspelling hsize
    obtain ⟨loaded, hload, hdescribes⟩ := hconfig
    obtain ⟨backend, v, hopen, hserves⟩ := hholds.exists_serves hdescribes
    obtain ⟨opened, v', hread, hpromises⟩ := hserves.found value hvalue
    rw [runProgram_of_check hoption hplain hload hdigest hsize]
    dsimp only
    exact Command.judges_checkValue hspelling digest count hopen hread hpromises
      (hholds.fits value hvalue)
  misses := by
    intro option config key digest size expected count hkey hoption hplain hconfig hdigest hsize
    obtain ⟨loaded, hload, hdescribes⟩ := hconfig
    obtain ⟨backend, v, hopen, hserves⟩ := hholds.exists_serves hdescribes
    have hmissing := hserves.missing ⟨key⟩ fun value hvalue heq =>
      hkey value hvalue (congrArg ContentKey.text heq).symm
    obtain ⟨error, hfails⟩ := Command.exists_error_checkValue expected count hopen hmissing
    rw [runProgram_of_check hoption hplain hload hdigest hsize, hfails]
    exact ⟨error.message, rfl⟩

end Steps

/-- What one run preserves, all of them preserve. -/
theorem Holds.of_runs (hholds : home.Holds [] start) (hruns : home.Runs start done tree)
    (hdistinct : NoCollision done) : home.Holds done tree := by
  induction hruns with
  | start => exact hholds
  | stored option config file _ hoption hplain hconfig hfile hfits ih =>
    obtain ⟨loaded, backend, v, stored, -, -, hrun, -, hkept⟩ :=
      (ih hdistinct.of_append).runProgram_store hoption hplain hconfig hfile hfits
    rw [hrun]
    exact hkept hdistinct
  | checked option config key digest size _ hoption hplain hconfig ih =>
    exact ((ih hdistinct).runProgram_check hoption hplain hconfig).2
  | changed _ hspared ih => exact (ih hdistinct).spared hspared

/-- From a fresh home on, whatever was stored by runs of the program is found by later ones,
which agree on its digest and its size, and nothing else is found. -/
theorem agrees_of_runs (hfresh : home.Fresh start) (hruns : home.Runs start done tree)
    (hdistinct : NoCollision done) : home.Agrees done tree :=
  ((Holds.of_fresh hfresh).of_runs hruns hdistinct).agrees

/-! ### A desk -/

/-- A database in the directory that all starts from. -/
def deskHome : Home :=
  .database "db" ["", "db"]

def deskConfig (chunkSize : ChunkSize) : Config :=
  ⟨.chunked (.database "db") chunkSize ∅⟩

/-- Two configurations, which differ in the size of chunks. -/
def deskSizes : List (String × ChunkSize) :=
  [("one", ⟨1, by decide⟩), ("two", ⟨2, by decide⟩)]

/-- What lies on the desk: the configurations, a note and a blank sheet. -/
def deskFiles : List (String × Bytes) :=
  deskSizes.map (fun pair => (pair.1, Bytes.ofText (deskConfig pair.2).render)) ++
    [("note", [97, 98, 99]), ("blank", [])]

def desk : FileTree :=
  deskFiles.foldl (fun tree pair => tree.put ["", pair.1] (.file pair.2)) .empty

theorem spells_desk : ∀ name ∈ "db" :: deskFiles.map Prod.fst, desk.Spells name ["", name] := by
  intro name hname
  have hleads : ∀ name ∈ "db" :: deskFiles.map Prod.fst,
      Path.parse name = .ok ⟨false, [name], false⟩ ∧
        desk.locate ⟨false, [name], false⟩ = .ok ["", name] := by
    decide +kernel
  exact ⟨_, (hleads name hname).1, (hleads name hname).2, rfl⟩

theorem fresh_desk : deskHome.Fresh desk := by
  have hnothing : desk.node? ["", "db"] = none := by decide +kernel
  have hplace : desk.placeForFile "db" = .ok ["", "db"] := by
    refine FileTree.placeForFile_eq_ok_iff.2 ⟨spells_desk "db" List.mem_cons_self, ?_⟩
    rw [hnothing]
    exact nofun
  refine ⟨desk, ⟨rfl, hplace⟩, ?_⟩
  rintro p rfl
  exact hnothing

/-- Runs that started at the desk, and left on it what lies there. -/
structure FromDesk (done : List Bytes) (tree : FileTree) : Prop where
  runs : deskHome.Runs desk done tree
  holds : deskHome.Holds done tree
  offers : ∀ pair ∈ deskFiles, deskHome.Offers tree pair.1 pair.2

theorem fromDesk_desk : FromDesk [] desk where
  runs := .start
  holds := .of_fresh fresh_desk
  offers := by
    intro pair hpair
    have hnodes : ∀ pair ∈ deskFiles,
        desk.node? ["", pair.1] = some (.file pair.2) ∧ ["", pair.1] ≠ ["", "db"] := by
      decide +kernel
    obtain ⟨hnode, hother⟩ := hnodes pair hpair
    have hname := List.mem_cons_of_mem "db" (List.mem_map_of_mem (f := Prod.fst) hpair)
    exact .of_spells (spells_desk pair.1 hname) hnode rfl hother

namespace FromDesk

variable {done : List Bytes} {tree : FileTree}

theorem configures (hdesk : FromDesk done tree) :
    ∀ pair ∈ deskSizes, deskHome.Configures tree pair.1 := by
  intro pair hpair
  have hdecode : ∀ pair ∈ deskSizes, pair.2.IsAllocatable ∧
      Config.decode (Bytes.ofText (deskConfig pair.2).render) = .ok (deskConfig pair.2) := by
    decide +kernel
  obtain ⟨hbuffer, hdecode⟩ := hdecode pair hpair
  have hfile : (pair.1, Bytes.ofText (deskConfig pair.2).render) ∈ deskFiles :=
    List.mem_append_left _ (List.mem_map_of_mem hpair)
  exact configures_of_openFile (hdesk.offers _ hfile).opens hdecode ⟨pair.2, ∅, hbuffer, rfl⟩

theorem stored (hdesk : FromDesk done tree) {option config file : String} {chunkSize : ChunkSize}
    {content : Bytes} (hoption : option ∈ configOptions) (hconfig : (config, chunkSize) ∈ deskSizes)
    (hfile : (file, content) ∈ deskFiles) (hdistinct : NoCollision (done ++ [content])) :
    FromDesk (done ++ [content]) (runProgram [option, config, "store", file] tree).2 := by
  have hfits : ∀ pair ∈ deskFiles, pair.2.length < UInt64.size := by decide +kernel
  have hconfigs : ∀ pair ∈ deskSizes, IsPlain pair.1 := by decide +kernel
  have hfiles : ∀ pair ∈ deskFiles, IsPlain pair.1 := by decide +kernel
  have hplain : ∀ argument ∈ [config, file], IsPlain argument :=
    List.forall_mem_cons.2 ⟨hconfigs _ hconfig, List.forall_mem_singleton.2 (hfiles _ hfile)⟩
  have hconfigures := hdesk.configures _ hconfig
  have hoffers := hdesk.offers _ hfile
  have hruns := hdesk.runs.stored option config file hoption hplain hconfigures hoffers
    (hfits _ hfile)
  obtain ⟨loaded, backend, v, stored, -, -, hrun, hleaves, hkept⟩ :=
    hdesk.holds.runProgram_store hoption hplain hconfigures hoffers (hfits _ hfile)
  rw [hrun] at hruns ⊢
  exact ⟨hruns, hkept hdistinct,
    fun pair hpair => (hdesk.offers pair hpair).of_leavesOthers hleaves⟩

theorem checked (hdesk : FromDesk done tree) {option config : String} {chunkSize : ChunkSize}
    (key digest size : String) (hoption : option ∈ configOptions)
    (hconfig : (config, chunkSize) ∈ deskSizes)
    (hplain : ∀ argument ∈ [config, key, digest, size], IsPlain argument) :
    FromDesk done (runProgram [option, config, "check", key, digest, size] tree).2 := by
  have hconfigures := hdesk.configures _ hconfig
  obtain ⟨hleaves, hholds⟩ := hdesk.holds.runProgram_check hoption hplain hconfigures
  exact ⟨hdesk.runs.checked option config key digest size hoption hplain hconfigures, hholds,
    fun pair hpair => (hdesk.offers pair hpair).of_leavesOthers hleaves⟩

end FromDesk

/-- A note is stored in chunks of two bytes, and once more in chunks of one byte, with a check
and a blank sheet in between.  The note is found under its digest, and not under its name. -/
theorem agrees_of_runs_desk :
    ∃ tree, deskHome.Fresh desk ∧ deskHome.Runs desk [[97, 98, 99], [], [97, 98, 99]] tree ∧
      NoCollision [[97, 98, 99], [], [97, 98, 99]] ∧
      (∃ front, (runProgram ["-c", "two", "check", "a9993e364706816aba3e25717850c26c9cd0d89d",
        "SHA-1:A9993E364706816ABA3E25717850C26C9CD0D89D", "3"] tree).1 =
          ⟨0, front ++ " [SUCCESS]\n", none⟩) ∧
      ∃ message, (runProgram ["-c", "two", "check", "note",
        "SHA-1:A9993E364706816ABA3E25717850C26C9CD0D89D", "3"] tree).1 = ⟨1, "", some message⟩ := by
  have hone : ("one", (⟨1, by decide⟩ : ChunkSize)) ∈ deskSizes := .head _
  have htwo : ("two", (⟨2, by decide⟩ : ChunkSize)) ∈ deskSizes := .tail _ (.head _)
  have hnote : ("note", ([97, 98, 99] : Bytes)) ∈ deskFiles := .tail _ (.tail _ (.head _))
  have hblank : ("blank", ([] : Bytes)) ∈ deskFiles := .tail _ (.tail _ (.tail _ (.head _)))
  have hshort : "-c" ∈ configOptions := .head _
  have hlong : "--config" ∈ configOptions := .tail _ (.head _)
  have hdistinct : NoCollision [[97, 98, 99], [], [97, 98, 99]] := by
    unfold NoCollision
    decide +kernel
  have hdistinct' : NoCollision ([[97, 98, 99], []] ++ [[97, 98, 99]]) := hdistinct
  have hdistinct'' : NoCollision ([[97, 98, 99]] ++ [[]]) := hdistinct'.of_append
  have hfirst := fromDesk_desk.stored hshort htwo hnote hdistinct''.of_append
  have hchecked := hfirst.checked "note" "urn:md5:00" "3" hlong hone (by decide)
  have hdesk := (hchecked.stored hlong hone hblank hdistinct'').stored hshort hone hnote hdistinct'
  have hagrees := agrees_of_runs fresh_desk hdesk.runs hdistinct
  have hconfig := hdesk.configures _ htwo
  have hdigest : DigestUri.parse "SHA-1:A9993E364706816ABA3E25717850C26C9CD0D89D" =
      .ok (DigestUri.ofDigest "sha1" (Algorithm.sha1.hash [97, 98, 99])) := by
    decide +kernel
  have hsize : readSize? "3" = some 3 := by decide +kernel
  have hkey : (keyOf [97, 98, 99]).text = "a9993e364706816aba3e25717850c26c9cd0d89d" := by
    decide +kernel
  refine ⟨_, fresh_desk, hdesk.runs, hdistinct, ?_, ?_⟩
  · rw [← hkey]
    exact (hagrees.judges "-c" "two" _ "3" "sha1" [97, 98, 99] _ .sha1 3 (.head _) hshort
      (by rw [hkey]; decide) hconfig hdigest rfl hsize).success rfl rfl
  · exact hagrees.misses "-c" "two" "note" _ "3" _ 3 (by decide +kernel) hshort (by decide +kernel)
      hconfig hdigest hsize

end ContentVault.Home
