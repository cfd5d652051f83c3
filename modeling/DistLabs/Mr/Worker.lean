import DistLabs.Mr.Coordinator
import DistLabs.Support.Grouping
import Mathlib.Data.List.Sort
import Mathlib.Data.String.Basic

/-!
# The workers of MapReduce

What a worker does with a task, and the sequential program that it is compared
with.  `none` stands for a panic or a `log.Fatal`, which end the process.
-/

namespace DistLabs.Mr

structure KeyValue where
  key : String
  value : String
deriving DecidableEq, Repr

/-- The contents of the files that exist. -/
abbrev Disk := String → Option String

/-- `json.Encoder` and `json.Decoder` for key/value pairs.  A file to which
pairs were encoded one after another is decoded to these pairs. -/
structure Json where
  encode : KeyValue → String
  decode : String → Option (List KeyValue)
  round_trip : ∀ kva, decode (String.join (kva.map encode)) = some kva

/-- The functions of an application, and `sort.Sort(ByKey(kva))`, of which only
the contract is known. -/
structure App where
  mapf : String → String → List KeyValue
  reducef : String → List String → String
  sort : List KeyValue → List KeyValue
  sort_perm : ∀ kva, (sort kva).Perm kva
  sort_sorted : ∀ kva, (sort kva).Pairwise fun a b ↦ a.key ≤ b.key
  json : Json

/-- FNV-1a with 32 bits. -/
def fnv32a (bytes : List UInt8) : UInt32 :=
  bytes.foldl (fun h b ↦ (h ^^^ b.toUInt32) * 16777619) 2166136261

def ihash (key : String) : ℕ :=
  (fnv32a key.toUTF8.toList &&& 0x7fffffff).toNat

/-- The name of the file that reduce task `num` writes. -/
def outName (num : ℕ) : String :=
  "mr-out-" ++ toString num

/-- The lines of an output file. -/
def format (lines : List (String × String)) : String :=
  String.join (lines.map fun line ↦ line.1 ++ " " ++ line.2 ++ "\n")

namespace App

variable (app : App)

/-! ## Map tasks -/

/-- A file with the encoded pairs. -/
def encodeAll (kva : List KeyValue) : String :=
  String.join (kva.map app.json.encode)

/-- The loop that distributes the pairs over the partitions. -/
def distribute (nReduce : ℕ) :
    List KeyValue → List (List KeyValue) → Option (List (List KeyValue))
  | [], intermediates => some intermediates
  | kv :: kva, intermediates =>
      if nReduce = 0 then none
      else
        distribute nReduce kva
          (intermediates.modify (ihash kv.key % nReduce) (· ++ [kv]))

/-- The loop that writes the partitions that are not empty, and keeps their
numbers in `map2reduce`. -/
def writePartitions (num : ℕ) :
    List (List KeyValue × ℕ) → Disk × List ℕ → Disk × List ℕ
  | [], out => out
  | (kva, i) :: rest, (disk, map2reduce) =>
      if kva.length = 0 then
        writePartitions num rest (disk, map2reduce)
      else
        writePartitions num rest
          (Function.update disk (intermediateName num i)
            (some (app.encodeAll kva)), map2reduce ++ [i])

/-- The loop over the files of map task `num`. -/
def mapFiles (num nReduce : ℕ) :
    List String → List (List KeyValue) → Disk × List ℕ →
      Option (Disk × List ℕ)
  | [], _, out => some out
  | filename :: rest, intermediates, (disk, map2reduce) =>
      match disk filename with
      | none => none
      | some content =>
          match distribute nReduce (app.mapf filename content)
              intermediates with
          | none => none
          | some intermediates =>
              mapFiles num nReduce rest intermediates
                (app.writePartitions num intermediates.zipIdx
                  (disk, map2reduce))

def doMap (disk : Disk) (task : TasksMetadata) (nReduce : ℤ) :
    Option (Disk × List ℕ) :=
  if nReduce < 0 then none
  else
    app.mapFiles task.taskNum nReduce.toNat task.filename
      (List.replicate nReduce.toNat []) (disk, [])

/-! ## Reduce tasks -/

/-- The loop that reads the intermediate files. -/
def readIntermediate (disk : Disk) :
    List String → Option (List KeyValue)
  | [] => some []
  | filename :: rest =>
      match disk filename with
      | none => none
      | some content =>
          match app.json.decode content with
          | none => none
          | some kva =>
              match readIntermediate disk rest with
              | none => none
              | some intermediate => some (kva ++ intermediate)

/-- The loop that calls `reducef` once for every run of equal keys. -/
def reduceAll (intermediate : List KeyValue) : List (String × String) :=
  (Grouping.runs KeyValue.key (app.sort intermediate)).map fun p ↦
    (p.1, app.reducef p.1 (p.2.map KeyValue.value))

def doReduce (disk : Disk) (task : TasksMetadata) : Option Disk :=
  match app.readIntermediate disk task.filename with
  | none => none
  | some intermediate =>
      some (Function.update disk (outName task.taskNum)
        (some (format (app.reduceAll intermediate))))

/-- `doTask`: the new disk and the intermediate files that are reported. -/
def doTask (disk : Disk) (task : TasksMetadata) (nReduce : ℤ) :
    Option (Disk × List ℕ) :=
  match task.taskType with
  | .reduce =>
      match app.doReduce disk task with
      | none => none
      | some disk => some (disk, [])
  | .map => app.doMap disk task nReduce

/-! ## The sequential program -/

/-- The loop over the input files. -/
def readInputs (disk : Disk) : List String → Option (List KeyValue)
  | [] => some []
  | filename :: rest =>
      match disk filename with
      | none => none
      | some content =>
          match readInputs disk rest with
          | none => none
          | some intermediate =>
              some (app.mapf filename content ++ intermediate)

/-- The lines that `mrsequential` writes to `mr-out-0`. -/
def mrsequential (disk : Disk) (files : List String) :
    Option (List (String × String)) :=
  match app.readInputs disk files with
  | none => none
  | some intermediate => some (app.reduceAll intermediate)

end App

/-! ## An application -/

/-- A string with a plus sign before every character and a full stop at its
end. -/
def quoted (s : String) : List Char :=
  s.toList.flatMap (fun ch ↦ ['+', ch]) ++ ['.']

/-- The decoder for pairs of quoted strings: the pairs so far, the key if it has
been read, and the characters of the string that is being read. -/
def unquote (kva : List KeyValue) (key : Option String) (text : List Char) :
    List Char → Option (List KeyValue)
  | [] => if key = none ∧ text = [] then some kva else none
  | '+' :: ch :: rest => unquote kva key (text ++ [ch]) rest
  | '.' :: rest =>
      match key with
      | none => unquote kva (some (String.ofList text)) [] rest
      | some key => unquote (kva ++ [⟨key, String.ofList text⟩]) none [] rest
  | _ => none

theorem unquote_flatMap (kva : List KeyValue) (key : Option String)
    (text chars rest : List Char) :
    unquote kva key text (chars.flatMap (fun ch ↦ ['+', ch]) ++ rest) =
      unquote kva key (text ++ chars) rest := by
  induction chars generalizing text with
  | nil => simp
  | cons ch chars ih =>
      rw [List.flatMap_cons, List.append_assoc]
      change unquote kva key (text ++ [ch])
        (chars.flatMap (fun ch ↦ ['+', ch]) ++ rest) = _
      rw [ih, List.append_assoc]
      rfl

theorem unquote_pair (kva : List KeyValue) (kv : KeyValue)
    (rest : List Char) :
    unquote kva none [] (quoted kv.key ++ quoted kv.value ++ rest) =
      unquote (kva ++ [kv]) none [] rest := by
  have hkey : quoted kv.key ++ quoted kv.value ++ rest =
      kv.key.toList.flatMap (fun ch ↦ ['+', ch]) ++
        ('.' :: (kv.value.toList.flatMap (fun ch ↦ ['+', ch]) ++
          ('.' :: rest))) := by
    simp [quoted]
  rw [hkey, unquote_flatMap]
  change unquote kva (some (String.ofList ([] ++ kv.key.toList))) [] _ = _
  rw [unquote_flatMap]
  change unquote (kva ++ [⟨String.ofList ([] ++ kv.key.toList),
    String.ofList ([] ++ kv.value.toList)⟩]) none [] rest = _
  simp

theorem unquote_join (kva acc : List KeyValue) :
    unquote acc none []
        (kva.flatMap fun kv ↦ quoted kv.key ++ quoted kv.value) =
      some (acc ++ kva) := by
  induction kva generalizing acc with
  | nil => simp [unquote]
  | cons kv kva ih =>
      rw [List.flatMap_cons, unquote_pair, ih, List.append_assoc]
      rfl

def quotedJson : Json where
  encode := fun kv ↦ String.ofList (quoted kv.key ++ quoted kv.value)
  decode := fun content ↦ unquote [] none [] content.toList
  round_trip := by
    intro kva
    rw [String.toList_join, List.flatMap_map]
    simpa using unquote_join kva []

/-- Count the letters of the input. -/
def letterCount : App where
  mapf := fun _ content ↦ content.toList.map fun ch ↦ ⟨toString ch, "1"⟩
  reducef := fun _ values ↦ toString values.length
  sort := List.insertionSort fun a b ↦ a.key ≤ b.key
  sort_perm := List.perm_insertionSort _
  sort_sorted := by
    intro kva
    have : Std.Total fun a b : KeyValue ↦ a.key ≤ b.key :=
      ⟨fun a b ↦ le_total a.key b.key⟩
    have : IsTrans KeyValue fun a b ↦ a.key ≤ b.key :=
      ⟨fun _ _ _ ↦ le_trans⟩
    exact List.pairwise_insertionSort _ kva
  json := quotedJson

/-- Two input files. -/
def letters : Disk
  | "a.txt" => some "ab"
  | "b.txt" => some "b"
  | _ => none

end DistLabs.Mr
