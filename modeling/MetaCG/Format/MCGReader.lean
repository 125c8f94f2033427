import MetaCG.Format.FileGraph
import MetaCG.Format.VersionTwoFidelity

/-! Readers and writers chosen by format version (`MCGReader.h`, `MCGReader.cpp`, `MCGWriter.cpp`).

The source of a reader is the JSON of a file. The version of the program that a writer puts into the header
is set when the program is built. -/
namespace MetaCG
open Foundations Callgraph
set_option autoImplicit false
set_option maxHeartbeats 250000
set_option maxRecDepth 120000

/-! ## Readers -/

/-- `ReaderSource::getFormatVersion` -/
def getFormatVersion (j : Json) : Except Exn String := do
  if !j.contains "_MetaCG" then return "unknown"
  let mcgInfo ← j.at_ "_MetaCG"
  if !mcgInfo.contains "version" then return "unknown"
  (← mcgInfo.at_ "version").getStr

inductive MCGReader where
  | versionTwo
  | versionFour
deriving DecidableEq, Repr

def MCGReader.read : MCGReader → Json → Except Exn Callgraph
  | .versionTwo => VersionTwo.read
  | .versionFour => MetaCG.read

/-- `none` for the null pointer: version 3 is no longer supported, others are unknown. -/
def createReader (j : Json) : Except Exn (Option MCGReader) := do
  let versionStr ← getFormatVersion j
  if versionStr = "2" ∨ versionStr = "2.0" then return some .versionTwo
  if versionStr = "3" ∨ versionStr = "3.0" then return none
  if versionStr = "4" ∨ versionStr = "4.0" then return some .versionFour
  return none

/-- `createReader(src)->read()`, as the tools that do not check the pointer call it. -/
def readFile (j : Json) : Except Exn Callgraph := do
  match ← createReader j with
  | none => throw .nullDereference
  | some mcgReader => mcgReader.read j

/-! ## Writers -/

/-- `MetaCG_VERSION_MAJOR`, `MetaCG_VERSION_MINOR` and `MetaCG_GIT_SHA` -/
structure BuildInfo where
  versionMajor : Int32
  versionMinor : Int32
  gitSha : String

def BuildInfo.generator (build : BuildInfo) (name : String) : MCGGeneratorVersionInfo :=
  ⟨name, build.versionMajor, build.versionMinor, build.gitSha⟩

inductive MCGWriter where
  | versionTwo
  | versionFour
deriving DecidableEq, Repr

/-- The writers with the arguments that their constructors default to. -/
def MCGWriter.write (build : BuildInfo) : MCGWriter → Callgraph → Except Exn Json
  | .versionTwo => VersionTwo.write (build.generator "CGCollector") (build.generator "MetaCG") false
  | .versionFour => Callgraph.write (.four (build.generator "MetaCG")) false

def createWriter (version : ℤ) : Option MCGWriter :=
  if version = 2 then some .versionTwo
  else if version = 4 then some .versionFour
  else none

/-! ## Every file that is read -/

/-- What the reader of version 2 returns, the reader of version 4 returns for the upgraded file. -/
theorem VersionTwo.read_upgraded {j : Json} {r : Callgraph} (h : VersionTwo.read j = .ok r) : ∃ j', MetaCG.read j' = .ok r := by
  unfold VersionTwo.read at h
  dsimp only at h
  split at h
  · cases h
  split at h
  · cases h
  obtain ⟨mcgInfo, -, h⟩ := bind_eq_ok.mp h
  split at h
  · cases h
  obtain ⟨jVersion, -, h⟩ := bind_eq_ok.mp h
  obtain ⟨mcgVersion, -, h⟩ := bind_eq_ok.mp h
  split at h
  · cases h
  obtain ⟨generator, -, h⟩ := bind_eq_ok.mp h
  obtain ⟨jName, -, h⟩ := bind_eq_ok.mp h
  obtain ⟨name, -, h⟩ := bind_eq_ok.mp h
  obtain ⟨jGeneratorVersion, -, h⟩ := bind_eq_ok.mp h
  obtain ⟨generatorVersion, -, h⟩ := bind_eq_ok.mp h
  obtain ⟨_, -, h⟩ := bind_eq_ok.mp h
  obtain ⟨jsonCG, -, h⟩ := bind_eq_ok.mp h
  split at h
  all_goals
    obtain ⟨j₁, -, h⟩ := bind_eq_ok.mp h
    obtain ⟨j₂, -, h⟩ := bind_eq_ok.mp h
    obtain ⟨j₃, -, h⟩ := bind_eq_ok.mp h
    obtain ⟨j₄, -, h⟩ := bind_eq_ok.mp h
    obtain ⟨j₅, -, h⟩ := bind_eq_ok.mp h
    obtain ⟨j₆, -, h⟩ := bind_eq_ok.mp h
    exact ⟨j₆, h⟩

/-- The graph that a reader returns is the graph of a file of version 4. -/
theorem MCGReader.read_fileGraph {reader : MCGReader} {j : Json} {r : Callgraph} (h : reader.read j = .ok r) :
    ∃ j' m, FileGraph j' m r := by
  cases reader with
  | versionFour => exact ⟨j, MetaCG.read_fileGraph h⟩
  | versionTwo =>
    obtain ⟨j', h'⟩ := VersionTwo.read_upgraded h
    exact ⟨j', MetaCG.read_fileGraph h'⟩

theorem readFile_fileGraph {j : Json} {r : Callgraph} (h : readFile j = .ok r) : ∃ j' m, FileGraph j' m r := by
  obtain ⟨reader, -, h⟩ := bind_eq_ok.mp h
  cases reader with
  | none => cases h
  | some reader => exact reader.read_fileGraph h

/-! ## The version of a written file -/

section
variable {j : Json}

theorem readFile_eq {reader : MCGReader} (hreader : createReader j = .ok (some reader)) : readFile j = reader.read j := by
  rw [readFile, hreader, ok_bind]

theorem getFormatVersion_of_at (mcgInfo : Json) {version : String} (hinfo : j.at_ "_MetaCG" = .ok mcgInfo)
    (hv : mcgInfo.at_ "version" = .ok (.str version)) : getFormatVersion j = .ok version := by
  have hcontains : ∀ {j : Json} {key : String} {v : Json}, j.at_ key = .ok v → j.contains key = true := by
    intro j key v h
    cases j with
    | obj fields =>
      rw [Json.contains, Option.isSome_iff_exists]
      cases hf : Ordered.find key fields with
      | none =>
        rw [Json.at_, hf] at h
        cases h
      | some w => exact ⟨w, rfl⟩
    | _ => cases h
  simp only [getFormatVersion, hcontains hinfo, hinfo, hcontains hv, hv, ok_bind, Bool.not_true, Bool.false_eq_true, if_false,
    Json.getStr]

/-- A file that a writer wrote goes to the reader of its own version. -/
theorem createReader_document (build : BuildInfo) (g : Callgraph) (str : ℕ → String) :
    createReader (g.document (.four (build.generator "MetaCG")) str) = .ok (some .versionFour) ∧
      createReader (VersionTwo.document (build.generator "CGCollector") g str) = .ok (some .versionTwo) := by
  have hfour : getVersionStr 4 0 = "4.0" := by decide
  have hat := VersionTwo.headerJson_at
  have hv₄ : getFormatVersion (g.document (.four (build.generator "MetaCG")) str) = .ok "4.0" := by
    refine getFormatVersion_of_at (VersionTwo.headerJson "4.0" (build.generator "MetaCG")) ?_ (hat "4.0" "4.0" _).1
    rw [document, VersionTwo.attachMCGFormatHeader_eq, MCGFileInfo.four]
    simp only [hfour, Ordered.insert_same]
    rw [Json.at_, Ordered.find_other (by decide), Ordered.find_same]
  have hv₂ : getFormatVersion (VersionTwo.document (build.generator "CGCollector") g str) = .ok "2.0" := by
    refine getFormatVersion_of_at (VersionTwo.headerJson "2.0" (build.generator "CGCollector")) ?_ (hat "2.0" "2.0" _).1
    rw [VersionTwo.document_eq, Json.at_, Ordered.find_other (by decide), Ordered.find_same]
  constructor
  · rw [createReader, hv₄]
    decide
  · rw [createReader, hv₂]
    decide

end

/-! ## Small files -/

/-- A node of a file of version 4 without metadata. -/
def plainNode (functionName : String) (callees : List String) : Json := .obj [
  ("callees", .obj (callees.map fun s => (s, .obj []))), ("functionName", .str functionName), ("hasBody", .bool true),
  ("meta", .obj []), ("origin", .null)]

def plainFile (nodes : List (String × Json)) : Json := .obj [
  ("_CG", .obj [("meta", .obj []), ("nodes", .obj nodes)]),
  ("_MetaCG", .obj [("generator", .obj [("name", .str "MetaCG"), ("sha", .str ""), ("version", .str "0.9")]),
    ("version", .str "4.0")])]

/-- The graph of a file that is known to be read. -/
def graphOf (j : Json) : Callgraph := (readFile j).toOption.getD Callgraph.empty

end MetaCG
