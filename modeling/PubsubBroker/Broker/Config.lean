/-
`config.c`: the settings that the server takes from its configuration file at start-up. The old strings, which are
freed or lost, are left out.
-/
import PubsubBroker.Common.Sds
import PubsubBroker.Common.JsonText

namespace PubsubBroker

open CLang Buffer Json Numeral

namespace Config

/-! ## The settings -/

def SIZE1024 : Nat := 1024
def CONFIG_OK : Nat := 0
def CONFIG_ERR : Nat := 1

/-- The fields of `struct server` that a configuration file can set. -/
structure Settings where
  pubIp : List UInt8
  subIp : List UInt8
  pubPort : Int
  subPort : Int
  logFile : List UInt8
  pidFile : List UInt8
  deriving DecidableEq, Repr

/-- The settings of `server_config_init`. -/
def serverConfigInit : Settings where
  pubIp := ascii "0.0.0.0"
  subIp := ascii "0.0.0.0"
  pubPort := 5561
  subPort := 5562
  logFile := ascii "./broker.log"
  pidFile := ascii "./broker.pid"

/-! ## Reading the file -/

/-- How many of the bytes ahead, `n` at most, are up to the next line feed. -/
def lineLen : Nat → List UInt8 → Nat
  | 0, _ => 0
  | _ + 1, [] => 0
  | n + 1, b :: file => if b = 10 then 1 else lineLen n file + 1

/-- `fgets(buf, size, fp)`, where `file` is ahead: what is put in `buf`, and what is ahead then. -/
def fgets (size : Nat) (file : List UInt8) : Option (List UInt8 × List UInt8) :=
  if file = [] then none else some (file.splitAt (lineLen (size - 1) file))

/-- The loop of `srv_load_cfg`. A call of `fgets` that is not the last one takes a byte at least. -/
def readLoop : Nat → List UInt8 → List UInt8 → List UInt8
  | 0, _, config => config
  | fuel + 1, file, config =>
    match fgets SIZE1024 file with
    | none => config
    | some (buf, file) => readLoop fuel file (config ++ cstr buf)

def readAll (file : List UInt8) : List UInt8 := readLoop (file.length + 1) file []

/-! ## Looking up -/

/-- `cJSON_strcasecmp(s1, s2)`, for the bytes in front of the terminators. -/
def strcasecmp : List UInt8 → List UInt8 → Int
  | [], [] => 0
  | [], b₂ :: _ => 0 - (tolower b₂).toNat
  | b₁ :: _, [] => (tolower b₁).toNat
  | b₁ :: s₁, b₂ :: s₂ =>
    if tolower b₁ = tolower b₂ then strcasecmp s₁ s₂ else (tolower b₁).toNat - (tolower b₂).toNat

section
variable {D : Type} (toInt : D → Int)

/-- `cJSON_GetObjectItem(object, string)`: the children of an array have no names. -/
def getObjectItem (string : List UInt8) : Value D → Option (Value D)
  | .object children => (children.find? fun c => strcasecmp c.1 string = 0).map (·.2)
  | _ => none

/-- `item->valuestring`, with `none` for `NULL`. -/
def valuestring : Value D → Option (List UInt8)
  | .string s => some s
  | _ => none

/-- `item->valueint`, which `parse_number` converts from the number. -/
def valueint : Value D → Int
  | .number d => toInt d
  | .true => 1
  | _ => 0

def strdup : Option (List UInt8) → Except MemFault (List UInt8)
  | some s => .ok s
  | none => .error .dangling

/-- What is done with an item that is a string in the server: `put` stores to the field. -/
def loadString (json : Value D) (name : List UInt8) (put : Settings → List UInt8 → Settings) (server : Settings) :
    Except MemFault Settings :=
  match getObjectItem name json with
  | none => .ok server
  | some item => do
    let s ← strdup (valuestring item)
    return put server s

/-- The same for a port. -/
def loadInt (json : Value D) (name : List UInt8) (put : Settings → Int → Settings) (server : Settings) : Settings :=
  match getObjectItem name json with
  | none => server
  | some item => put server (valueint toInt item)

/-- The part of `srv_load_cfg` behind the parser. -/
def update (json : Value D) (server : Settings) : Except MemFault Settings := do
  let server ← loadString json (ascii "pub_ip") (fun s v => { s with pubIp := v }) server
  let server ← loadString json (ascii "sub_ip") (fun s v => { s with subIp := v }) server
  let server := loadInt toInt json (ascii "pub_port") (fun s v => { s with pubPort := v }) server
  let server := loadInt toInt json (ascii "sub_port") (fun s v => { s with subPort := v }) server
  let server ← loadString json (ascii "log_file") (fun s v => { s with logFile := v }) server
  loadString json (ascii "pid_file") (fun s v => { s with pidFile := v }) server

end

/-- `srv_load_cfg(cfg_path)`, where `file` is the file at the path, if there is a path and the file can be opened, and
`toInt` the conversion of a number to an `int`. -/
def srvLoadCfg (F : Doubles) (toInt : F.Double → Int) (server : Settings) (file : Option (List UInt8)) :
    Except MemFault (Settings × Nat) :=
  match file with
  | none => .ok (server, CONFIG_OK)
  | some file => do
    let json ← cJSONParse F ((readAll file ++ [0]).map some)
    match json with
    | none => .ok (server, CONFIG_ERR)
    | some (_, json) => do
      let server ← update toInt json server
      return (server, CONFIG_OK)

/-! ## The text of the file -/

theorem lineLen_pos {n : Nat} {b : UInt8} {file : List UInt8} : 0 < lineLen (n + 1) (b :: file) := by
  rw [lineLen]
  split_ifs <;> omega

/-- A file without a NUL is read as it is. -/
theorem readLoop_eq : ∀ (fuel : Nat) (file config : List UInt8), file.length < fuel → 0 ∉ file →
    readLoop fuel file config = config ++ file
  | fuel + 1, [], config, _, _ => (List.append_nil config).symm
  | fuel + 1, b :: file, config, hfuel, h0 => by
    have hpos : 0 < lineLen (SIZE1024 - 1) (b :: file) := lineLen_pos
    rw [readLoop, fgets, if_neg (List.cons_ne_nil b file), List.splitAt_eq]
    simp only
    generalize lineLen (SIZE1024 - 1) (b :: file) = n at hpos
    have hline : cstr ((b :: file).take n) = (b :: file).take n := cstr_eq_self.2 fun h => h0 (List.mem_of_mem_take h)
    have hdrop : ((b :: file).drop n).length < fuel := by
      rw [List.length_drop]
      rw [List.length_cons] at hfuel ⊢
      omega
    rw [readLoop_eq fuel _ _ hdrop fun h => h0 (List.mem_of_mem_drop h), hline, List.append_assoc, List.take_append_drop]

/-! ## The settings of a file -/

theorem tolower_ne_zero {b : UInt8} (h : b ≠ 0) : (tolower b).toNat ≠ 0 := by
  have hall : ∀ i < 256, UInt8.ofNat i ≠ 0 → (tolower (UInt8.ofNat i)).toNat ≠ 0 := by decide +kernel
  have hb := hall b.toNat b.toNat_lt
  rw [UInt8.ofNat_toNat] at hb
  exact hb h

theorem strcasecmp_eq_zero : ∀ {s₁ s₂ : List UInt8}, 0 ∉ s₁ → 0 ∉ s₂ → (strcasecmp s₁ s₂ = 0 ↔ s₁.map tolower = s₂.map tolower)
  | [], [], _, _ => by simp [strcasecmp]
  | [], b :: s, _, h => by
    have hb : (tolower b).toNat ≠ 0 := tolower_ne_zero fun heq => h (heq ▸ List.mem_cons_self)
    simp [strcasecmp]
    omega
  | b :: s, [], h, _ => by
    have hb : (tolower b).toNat ≠ 0 := tolower_ne_zero fun heq => h (heq ▸ List.mem_cons_self)
    simp [strcasecmp]
    omega
  | b₁ :: s₁, b₂ :: s₂, h₁, h₂ => by
    have ih := strcasecmp_eq_zero (fun h => h₁ (List.mem_cons_of_mem _ h)) fun h => h₂ (List.mem_cons_of_mem _ h)
    rw [strcasecmp, List.map_cons, List.map_cons, List.cons.injEq]
    by_cases heq : tolower b₁ = tolower b₂
    · rw [if_pos heq, ih, and_iff_right heq]
    · have hne : (tolower b₁).toNat ≠ (tolower b₂).toNat := fun h => heq (UInt8.toNat_inj.1 h)
      rw [if_neg heq]
      simp only [heq, false_and, iff_false]
      omega

section
variable {F : Doubles} (toInt : F.Double → Int) {ms : List (List UInt8 × Value F.Double)} {name : List UInt8}

/-- The first member with this name, where case does not matter. -/
def setting (name : List UInt8) (ms : List (List UInt8 × Value F.Double)) : Option (Value F.Double) :=
  (ms.find? fun c => c.1.map tolower = name.map tolower).map (·.2)

/-- If the setting is there, it is a string. -/
def IsString (name : List UInt8) (ms : List (List UInt8 × Value F.Double)) : Prop :=
  ∀ v, setting name ms = some v → ∃ s, v = .string s

/-- The settings that have to be strings are. -/
structure WellTyped (ms : List (List UInt8 × Value F.Double)) : Prop where
  pubIp : IsString (ascii "pub_ip") ms
  subIp : IsString (ascii "sub_ip") ms
  logFile : IsString (ascii "log_file") ms
  pidFile : IsString (ascii "pid_file") ms

def stringSetting (name : List UInt8) (ms : List (List UInt8 × Value F.Double)) (old : List UInt8) : List UInt8 :=
  ((setting name ms).bind valuestring).getD old

def intSetting (name : List UInt8) (ms : List (List UInt8 × Value F.Double)) (old : Int) : Int :=
  ((setting name ms).map (valueint toInt)).getD old

/-- The settings of a file over the old ones. -/
def Settings.over (ms : List (List UInt8 × Value F.Double)) (old : Settings) : Settings where
  pubIp := stringSetting (ascii "pub_ip") ms old.pubIp
  subIp := stringSetting (ascii "sub_ip") ms old.subIp
  pubPort := intSetting toInt (ascii "pub_port") ms old.pubPort
  subPort := intSetting toInt (ascii "sub_port") ms old.subPort
  logFile := stringSetting (ascii "log_file") ms old.logFile
  pidFile := stringSetting (ascii "pid_file") ms old.pidFile

theorem getObjectItem_eq (hms : ∀ c ∈ ms, 0 ∉ c.1) (hname : 0 ∉ name) : getObjectItem name (.object ms) = setting name ms := by
  rw [getObjectItem, setting]
  refine congrArg _ (List.find?_congr fun c hc => ?_)
  rw [decide_eq_decide]
  exact strcasecmp_eq_zero (hms c hc) hname

variable {put : Settings → List UInt8 → Settings} {server : Settings} {o : List UInt8}

theorem loadString_ok (hms : ∀ c ∈ ms, 0 ∉ c.1) (hname : 0 ∉ name) (hs : IsString name ms) (hput : put server o = server) :
    loadString (.object ms) name put server = .ok (put server (stringSetting name ms o)) := by
  rw [loadString, getObjectItem_eq hms hname, stringSetting]
  cases hset : setting name ms with
  | none => exact congrArg Except.ok hput.symm
  | some v =>
    obtain ⟨s, rfl⟩ := hs v hset
    rfl

/-- `strdup` of a null pointer. -/
theorem loadString_fault (hms : ∀ c ∈ ms, 0 ∉ c.1) (hname : 0 ∉ name) (hs : ¬ IsString name ms) :
    loadString (.object ms) name put server = .error .dangling := by
  unfold IsString at hs
  push Not at hs
  obtain ⟨v, hset, hv⟩ := hs
  rw [loadString, getObjectItem_eq hms hname, hset]
  cases v with
  | string s => exact absurd rfl (hv s)
  | _ => rfl

theorem loadInt_eq {putInt : Settings → Int → Settings} {k : Int} (hms : ∀ c ∈ ms, 0 ∉ c.1) (hname : 0 ∉ name)
    (hput : putInt server k = server) :
    loadInt toInt (.object ms) name putInt server = putInt server (intSetting toInt name ms k) := by
  rw [loadInt, getObjectItem_eq hms hname, intSetting]
  cases setting name ms with
  | none => exact hput.symm
  | some v => rfl

theorem names_ne_zero : (0 ∉ ascii "pub_ip" ∧ 0 ∉ ascii "sub_ip" ∧ 0 ∉ ascii "pub_port") ∧
    0 ∉ ascii "sub_port" ∧ 0 ∉ ascii "log_file" ∧ 0 ∉ ascii "pid_file" := by
  decide +kernel

theorem update_eq (hms : ∀ c ∈ ms, 0 ∉ c.1) (server : Settings) :
    (WellTyped ms → update toInt (.object ms) server = .ok (server.over toInt ms)) ∧
    (¬ WellTyped ms → update toInt (.object ms) server = .error .dangling) := by
  obtain ⟨⟨hpubIp, hsubIp, hpubPort⟩, hsubPort, hlogFile, hpidFile⟩ := names_ne_zero
  constructor
  · intro hs
    rw [update, loadString_ok hms hpubIp hs.pubIp (o := server.pubIp) rfl, done_bind,
      loadString_ok hms hsubIp hs.subIp (o := server.subIp) rfl, done_bind]
    simp only
    rw [loadInt_eq toInt hms hpubPort (k := server.pubPort) rfl, loadInt_eq toInt hms hsubPort (k := server.subPort) rfl,
      loadString_ok hms hlogFile hs.logFile (o := server.logFile) rfl, done_bind,
      loadString_ok hms hpidFile hs.pidFile (o := server.pidFile) rfl]
    rfl
  · intro hs
    rw [update]
    by_cases h₁ : IsString (ascii "pub_ip") ms
    case neg => rw [loadString_fault hms hpubIp h₁]; rfl
    rw [loadString_ok hms hpubIp h₁ (o := server.pubIp) rfl, done_bind]
    by_cases h₂ : IsString (ascii "sub_ip") ms
    case neg => rw [loadString_fault hms hsubIp h₂]; rfl
    rw [loadString_ok hms hsubIp h₂ (o := server.subIp) rfl, done_bind]
    simp only
    by_cases h₃ : IsString (ascii "log_file") ms
    case neg => rw [loadString_fault hms hlogFile h₃]; rfl
    rw [loadInt_eq toInt hms hpubPort (k := server.pubPort) rfl, loadInt_eq toInt hms hsubPort (k := server.subPort) rfl,
      loadString_ok hms hlogFile h₃ (o := server.logFile) rfl, done_bind]
    exact loadString_fault hms hpidFile fun h₄ => hs ⟨h₁, h₂, h₃, h₄⟩

/-- `srv_load_cfg` on a file of less than 2^31 bytes with a JSON object in it: the settings become those of the file,
where each is the first member with its name, and the others stay. Only where an address or a path is no string does it
fail, and then it does so by `strdup` of a null pointer. Without a file nothing changes. -/
theorem settings_loaded (F : Doubles) (toInt : F.Double → Int) (server : Settings) :
    srvLoadCfg F toInt server none = .ok (server, CONFIG_OK) ∧
    ∀ (w t w' : List UInt8) (ms : List (List UInt8 × Value F.Double)), Blank w → Doc F t (.object ms) → Blank w' →
      (w ++ (t ++ w')).length < 2 ^ 31 →
      (WellTyped ms → srvLoadCfg F toInt server (some (w ++ (t ++ w'))) = .ok (server.over toInt ms, CONFIG_OK)) ∧
      (¬ WellTyped ms → srvLoadCfg F toInt server (some (w ++ (t ++ w'))) = .error .dangling) := by
  refine ⟨rfl, fun w t w' ms hw h hw' hlt => ?_⟩
  have h0 : 0 ∉ w ++ (t ++ w') := by
    rw [List.mem_append, List.mem_append, not_or, not_or]
    exact ⟨hw.ne_zero, h.text_ne_zero, hw'.ne_zero⟩
  have hread : readAll (w ++ (t ++ w')) ++ [0] = w ++ (t ++ (w' ++ [0])) := by
    rw [readAll, readLoop_eq _ _ _ (Nat.lt_succ_self _) h0, List.nil_append, List.append_assoc, List.append_assoc]
  obtain ⟨hgood, hbad⟩ := update_eq toInt h.name_ne_zero server
  have hload : srvLoadCfg F toInt server (some (w ++ (t ++ w'))) =
      (update toInt (.object ms) server >>= fun server => .ok (server, CONFIG_OK)) := by
    have hshort : t.length < 2 ^ 31 := by
      simp only [List.length_append] at hlt
      omega
    rw [srvLoadCfg, hread, cJSONParse_spec hw h hshort hw' [], done_bind]
    rfl
  constructor
  · intro hs
    rw [hload, hgood hs, done_bind]
  · intro hs
    rw [hload, hbad hs]
    rfl

end

/-- A name in other letters, a port, and an address that is no string. -/
theorem settings_loaded_ports :
    srvLoadCfg .exact (fun q : ℚ => q.num.tdiv q.den) serverConfigInit
      (some (ascii "\x7b\"Pub_Ip\":\"::1\",\"sub_port\":6\x7d\n")) =
        .ok ({ serverConfigInit with pubIp := ascii "::1", subPort := 6 }, CONFIG_OK) ∧
    srvLoadCfg .exact (fun q : ℚ => q.num.tdiv q.den) serverConfigInit (some (ascii "\x7b\"sub_ip\":null\x7d")) =
      .error .dangling := by
  have hnil : Blank [] := List.forall_mem_nil _
  have hfeed : Blank [10] := fun b hb => List.mem_singleton.1 hb ▸ (by decide)
  have hsix : numberValue .exact 1 [54] [] 0 = (6 : ℚ) := by
    simp [numberValue, Doubles.shift, Doubles.exact, digit]
  have hnumber : Doc .exact [54] (.number (6 : ℚ)) := by
    have := Doc.number (F := .exact) (@IntPart.digits 54 [] (by decide) (List.forall_mem_nil _)) .none .none
    rwa [hsix] at this
  have hport := Members.last hnil (.plain (s := ascii "sub_port") (by decide +kernel)) hnil hnil hnumber hnil
  have hfile := Doc.object (.cons hnil (.plain (s := ascii "Pub_Ip") (by decide +kernel)) hnil hnil
    (.string (.plain (s := ascii "::1") (by decide +kernel))) hnil hport)
  have hnull := Doc.object (F := .exact) (.last hnil (.plain (s := ascii "sub_ip") (by decide +kernel)) hnil hnil .null hnil)
  have hload := (settings_loaded .exact (fun q : ℚ => q.num.tdiv q.den) serverConfigInit).2 [] _ [10] _ hnil hfile hfeed (by decide +kernel)
  have hfail := (settings_loaded .exact (fun q : ℚ => q.num.tdiv q.den) serverConfigInit).2 [] _ [] _ hnil hnull hnil (by decide +kernel)
  constructor
  · refine Eq.trans ?_ (hload.1 ⟨?_, ?_, ?_, ?_⟩)
    · rfl
    · intro v hv
      exact ⟨ascii "::1", (Option.some.inj hv).symm⟩
    all_goals
      intro v hv
      cases hv
  · refine Eq.trans ?_ (hfail.2 fun hs => ?_)
    · rfl
    · obtain ⟨s, hs⟩ := hs.subIp .null rfl
      cases hs

end Config

end PubsubBroker
