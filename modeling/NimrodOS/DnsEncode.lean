import NimrodOS.DnsParse
import NimrodOS.Lib.Cursor

/-! The query that `net_dns_resolve` builds in an array of 256 bytes, with the pointer that
moves through it. Nothing checks how far it gets. -/
namespace NimrodOS.Net.Dns

open Wire Cursor Checked

abbrev QueryWriter := Writer 256 Byte

/-- The inner loop: the pointer, the length so far and what is left of the name. -/
def copyLabel (w : QueryWriter) (labelLen : Byte) :
    List Byte → Except OutOfRange (QueryWriter × Byte × List Byte)
  | [] => .ok (w,labelLen,[])
  | c :: src =>
    if c = 46 then .ok (w,labelLen,c :: src)
    else (w.push c).bind fun w => copyLabel w (labelLen + 1) src

/-- `if (*src == '.') src++;` -/
def skipDot : List Byte → List Byte
  | [] => []
  | c :: src => if c = 46 then src else c :: src

/-- One label; its length goes to the byte in front of it. -/
def encodeLabel (w : QueryWriter) (src : List Byte) : Except OutOfRange (QueryWriter × List Byte) :=
  (copyLabel w.skip 0 src).bind fun (copied,labelLen,src) =>
    (copied.patch w.place labelLen).map fun patched => (patched,skipDot src)

/-- The outer loop. As many rounds as characters are left are enough. -/
def encodeName : Nat → QueryWriter → List Byte → Except OutOfRange QueryWriter
  | 0,w,_ => .ok w
  | rounds + 1,w,src =>
    if src = [] then .ok w
    else (encodeLabel w src).bind fun (w,src) => encodeName rounds w src

def queryHeader (id : Half) : List Byte :=
  bytes16 (htons id) ++ bytes16 (htons 0x0100) ++ bytes16 (htons 1) ++ List.replicate 6 0

/-- The query and its length, whatever the array held before. -/
def encodeQuery (query : Fin 256 → Byte) (id : Half) (hostname : List Byte) :
    Except OutOfRange ((Fin 256 → Byte) × Half) :=
  (Writer.pushAll ⟨query,0⟩ (queryHeader id)).bind fun w =>
    (encodeName hostname.length w hostname).bind fun w =>
      (w.pushAll [0,0,1,0,1]).map fun w => (w.contents,BitVec.ofNat 16 w.place)

/-- The bytes of the labels. -/
def nameBytes (src : List Byte) : List Byte := if src.isEmpty then [] else qname [] src

def firstLabel (src : List Byte) : List Byte := src.takeWhile (· ≠ 46)

/-- What is left behind the first label and its dot. -/
def restName (src : List Byte) : List Byte := skipDot (src.dropWhile (· ≠ 46))

/-- A label with its length in front. -/
def labelBytes (label : List Byte) : List Byte := BitVec.ofNat 8 label.length :: label

def EndsInDot (src : List Byte) : Prop := src.getLast? = some 46

instance (src : List Byte) : Decidable (EndsInDot src) := inferInstanceAs (Decidable (_ = _))

/-! Host names, and how a name is read. -/

/-- Labels between dots. -/
def dotted : List Label → List Byte
  | [] => []
  | [l] => l.val
  | l :: labels => l.val ++ 46 :: dotted labels

def hostname (labels : List Label) (trailing : Bool) : List Byte :=
  dotted labels ++ if trailing then [46] else []

/-- The labels up to the zero byte, and what follows it. -/
def decodeLabels : Nat → List Byte → Option (List (List Byte) × List Byte)
  | 0,_ => none
  | _ + 1,[] => none
  | rounds + 1,n :: rest =>
    if n = 0 then some ([],rest)
    else if 63 < n.toNat ∨ rest.length < n.toNat then none
    else (decodeLabels rounds (rest.drop n.toNat)).map fun r => (rest.take n.toNat :: r.1,r.2)

def decodeName (bytes : List Byte) : Option (List (List Byte) × List Byte) :=
  decodeLabels bytes.length bytes

section

variable {w : QueryWriter} {query : Fin 256 → Byte} {id : Half} {c : Byte} {src host label : List Byte}
  {labels : List Label} {rounds : Nat}

/-! One label. -/

theorem firstLabel_dot : firstLabel (46 :: src) = [] := List.takeWhile_cons_of_neg (by simp)

theorem firstLabel_char (char : c ≠ 46) : firstLabel (c :: src) = c :: firstLabel src :=
  List.takeWhile_cons_of_pos (by simpa using char)

theorem restName_dot : restName (46 :: src) = src := by
  rw [restName,List.dropWhile_cons_of_neg (by simp),skipDot,if_pos rfl]

theorem restName_char (char : c ≠ 46) : restName (c :: src) = restName src := by
  rw [restName,List.dropWhile_cons_of_pos (by simpa using char),restName]

theorem copyLabel_eq (w : QueryWriter) (labelLen : Byte) (src : List Byte) : copyLabel w labelLen src =
    (w.pushAll (firstLabel src)).map fun copied =>
      (copied,labelLen + BitVec.ofNat 8 (firstLabel src).length,src.dropWhile (· ≠ 46)) := by
  have none : labelLen + BitVec.ofNat 8 0 = labelLen := BitVec.add_zero labelLen
  induction src generalizing w labelLen with
  | nil =>
    rw [copyLabel,firstLabel,List.takeWhile_nil,List.length_nil,none]
    rfl
  | cons c src ih =>
    rw [copyLabel]
    by_cases dot : c = 46
    · rw [if_pos dot,dot,firstLabel_dot,List.dropWhile_cons_of_neg (by simp),List.length_nil,none]
      rfl
    · have step (n : Nat) : labelLen + 1 + BitVec.ofNat 8 n = labelLen + BitVec.ofNat 8 (n + 1) := by
        rw [BitVec.add_assoc,Nat.add_comm,BitVec.ofNat_add]
        rfl
      rw [if_neg dot,firstLabel_char dot,List.dropWhile_cons_of_pos (by simpa using dot),pushAll_cons,
        List.length_cons,← step]
      cases w.push c with
      | error e => rfl
      | ok next => exact ih next (labelLen + 1) (BitVec.add_zero _)

theorem qname_label (label src : List Byte) :
    qname label src = labelBytes (label ++ firstLabel src) ++ nameBytes (restName src) := by
  induction src generalizing label with
  | nil =>
    rw [qname,firstLabel,List.takeWhile_nil,List.append_nil]
    exact (List.append_nil _).symm
  | cons c src ih =>
    rw [qname]
    by_cases dot : c = 46
    · rw [if_pos dot,dot,firstLabel_dot,restName_dot,List.append_nil]
      rfl
    · rw [if_neg dot,firstLabel_char dot,restName_char dot,ih,List.append_assoc]
      rfl

theorem nameBytes_label (some : src ≠ []) :
    nameBytes src = labelBytes (firstLabel src) ++ nameBytes (restName src) := by
  rw [nameBytes,if_neg (by simpa using some),qname_label]
  rfl

/-- The byte in front of a label is filled in behind it. -/
theorem encodeLabel_eq (w : QueryWriter) (src : List Byte) : encodeLabel w src =
    ((w.skip.pushAll (firstLabel src)).bind
      (·.patch w.place (BitVec.ofNat 8 (firstLabel src).length))).map fun patched =>
        (patched,restName src) := by
  have start (n : Nat) : (0 : Byte) + BitVec.ofNat 8 n = BitVec.ofNat 8 n := BitVec.zero_add _
  rw [encodeLabel,copyLabel_eq]
  cases w.skip.pushAll (firstLabel src) with
  | error e => rfl
  | ok copied =>
    simp only [Except.map,Except.bind,start]
    rw [restName]

theorem encodeLabel_inside (fits : w.place + (labelBytes (firstLabel src)).length ≤ 256) :
    encodeLabel w src = .ok (⟨overlay w.contents w.place (labelBytes (firstLabel src)),
      w.place + (labelBytes (firstLabel src)).length⟩,restName src) := by
  rw [labelBytes,List.length_cons] at fits ⊢
  rw [encodeLabel_eq,backpatch_inside (by omega),Nat.add_right_comm]
  rfl

theorem encodeLabel_beyond (beyond : 256 < w.place + (labelBytes (firstLabel src)).length) :
    ∃ e, encodeLabel w src = .error e := by
  rw [labelBytes,List.length_cons] at beyond
  have more : 256 < w.place + 1 + (firstLabel src).length := by omega
  obtain ⟨e,failed⟩ := backpatch_beyond (x := BitVec.ofNat 8 (firstLabel src).length) more
  rw [encodeLabel_eq,failed]
  exact ⟨e,rfl⟩

/-! The whole name. -/

theorem restName_shorter (some : src ≠ []) : (restName src).length < src.length := by
  induction src with
  | nil => exact absurd rfl some
  | cons c src ih =>
    by_cases dot : c = 46
    · rw [dot,restName_dot]
      exact Nat.lt_succ_self _
    · rw [restName_char dot]
      by_cases last : src = []
      · rw [last]
        exact Nat.zero_lt_succ _
      · exact Nat.lt_succ_of_lt (ih last)

/-- A name is written as far as the array goes. -/
theorem encodeName_inside (enough : src.length ≤ rounds)
    (fits : w.place + (nameBytes src).length ≤ 256) : encodeName rounds w src =
      .ok ⟨overlay w.contents w.place (nameBytes src),w.place + (nameBytes src).length⟩ := by
  have nothing (w : QueryWriter) : Except.ok (ε := OutOfRange) w =
      .ok ⟨overlay w.contents w.place [],w.place + 0⟩ := by
    rw [overlay_nil]
    rfl
  induction rounds generalizing w src with
  | zero =>
    obtain rfl := List.length_eq_zero_iff.mp (Nat.le_zero.mp enough)
    exact nothing w
  | succ rounds ih =>
    rw [encodeName]
    by_cases none : src = []
    · rw [if_pos none,none]
      exact nothing w
    · have shorter := restName_shorter none
      rw [nameBytes_label none,List.length_append] at fits ⊢
      rw [if_neg none,encodeLabel_inside (by omega),Except.bind]
      dsimp only
      rw [ih (by omega) (by dsimp only; omega)]
      simp only [overlay_append,Nat.add_assoc]

theorem encodeName_beyond (enough : src.length ≤ rounds) (some : src ≠ [])
    (beyond : 256 < w.place + (nameBytes src).length) : ∃ e, encodeName rounds w src = .error e := by
  induction rounds generalizing w src with
  | zero => exact absurd (List.length_eq_zero_iff.mp (Nat.le_zero.mp enough)) some
  | succ rounds ih =>
    have shorter := restName_shorter some
    rw [nameBytes_label some,List.length_append] at beyond
    rw [encodeName,if_neg some]
    by_cases fits : w.place + (labelBytes (firstLabel src)).length ≤ 256
    · have more : restName src ≠ [] := by
        intro none
        rw [none] at beyond
        exact absurd beyond (Nat.not_lt.mpr fits)
      rw [encodeLabel_inside fits]
      exact ih (by omega) more (by dsimp only; omega)
    · obtain ⟨e,failed⟩ := encodeLabel_beyond (Nat.lt_of_not_le fits)
      rw [failed]
      exact ⟨e,rfl⟩

/-! The whole query. -/

theorem dnsQuery_parts (id : Half) (host : List Byte) :
    dnsQuery id host = queryHeader id ++ nameBytes host ++ [0,0,1,0,1] := rfl

theorem dnsQuery_length_eq (id : Half) (host : List Byte) :
    (dnsQuery id host).length = 12 + (nameBytes host).length + 5 := by
  rw [dnsQuery_parts,List.length_append,List.length_append]
  rfl

/-- The header always fits. -/
theorem encodeQuery_named (query : Fin 256 → Byte) (id : Half) (host : List Byte) :
    encodeQuery query id host =
      (encodeName host.length ⟨overlay query 0 (queryHeader id),12⟩ host).bind fun w =>
        (w.pushAll [0,0,1,0,1]).map fun w => (w.contents,BitVec.ofNat 16 w.place) := by
  have header : (queryHeader id).length = 12 := rfl
  have first : (Writer.pushAll ⟨query,0⟩ (queryHeader id)) =
      .ok ⟨overlay query 0 (queryHeader id),0 + (queryHeader id).length⟩ :=
    pushAll_inside (by dsimp only; omega)
  rw [encodeQuery,first]
  rfl

theorem encodeQuery_inside (query : Fin 256 → Byte) (fits : (dnsQuery id host).length ≤ 256) :
    encodeQuery query id host =
      .ok (overlay query 0 (dnsQuery id host),BitVec.ofNat 16 (dnsQuery id host).length) := by
  have five : ([0,0,1,0,1] : List Byte).length = 5 := rfl
  have length := dnsQuery_length_eq id host
  have name : overlay (overlay query 0 (queryHeader id)) 12 (nameBytes host) =
      overlay query 0 (queryHeader id ++ nameBytes host) := overlay_append (i := 0)
  have total : 12 + (nameBytes host).length = 0 + (queryHeader id ++ nameBytes host).length := by
    rw [List.length_append,Nat.zero_add]
    rfl
  rw [encodeQuery_named,encodeName_inside (Nat.le_refl _) (by dsimp only; omega),Except.bind]
  dsimp only
  rw [pushAll_inside (by dsimp only; omega),Except.map,name]
  dsimp only
  rw [total,overlay_append,length,five,← total]
  rfl

theorem encodeQuery_beyond (query : Fin 256 → Byte) (beyond : 256 < (dnsQuery id host).length) :
    ∃ e, encodeQuery query id host = .error e := by
  have length := dnsQuery_length_eq id host
  rw [encodeQuery_named]
  by_cases named : 12 + (nameBytes host).length ≤ 256
  · rw [encodeName_inside (Nat.le_refl _) (by dsimp only; omega),Except.bind]
    dsimp only
    obtain ⟨e,failed⟩ := pushAll_beyond
      (w := ⟨overlay (overlay query 0 (queryHeader id)) 12 (nameBytes host),12 + (nameBytes host).length⟩)
      (List.cons_ne_nil (0 : Byte) [0,1,0,1]) (by simp only [List.length_cons,List.length_nil]; omega)
    rw [failed]
    exact ⟨e,rfl⟩
  · have some : host ≠ [] := by
      rintro rfl
      exact named (by decide)
    obtain ⟨e,failed⟩ := encodeName_beyond (w := ⟨overlay query 0 (queryHeader id),12⟩)
      (Nat.le_refl _) some (by dsimp only; omega)
    rw [failed]
    exact ⟨e,rfl⟩

theorem encodeQuery_ok_iff (query : Fin 256 → Byte) (id : Half) (host : List Byte) :
    (∃ r, encodeQuery query id host = .ok r) ↔ (dnsQuery id host).length ≤ 256 := by
  constructor
  · rintro ⟨r,ran⟩
    by_contra long
    obtain ⟨e,failed⟩ := encodeQuery_beyond query (Nat.lt_of_not_le long)
    cases failed.symm.trans ran
  · exact fun fits => ⟨_,encodeQuery_inside query fits⟩

/-- Each dot between labels gives way to a length, and one more byte is needed unless the
name ends in a dot. -/
theorem qname_length (label src : List Byte) : (qname label src).length =
    label.length + src.length + if EndsInDot src then 0 else 1 := by
  induction src generalizing label with
  | nil => rfl
  | cons c src ih =>
    rw [qname]
    cases src with
    | nil =>
      by_cases dot : c = 46
      · simp [dot,EndsInDot]
      · have other : ¬EndsInDot [c] := fun last => dot (Option.some.inj last)
        rw [if_neg dot,if_neg other,ih,List.length_append]
        rfl
    | cons d src =>
      have same : EndsInDot (c :: d :: src) ↔ EndsInDot (d :: src) := by
        rw [EndsInDot,List.getLast?_cons_cons,EndsInDot]
      simp only [same]
      by_cases dot : c = 46
      · rw [if_pos dot,List.length_append,List.isEmpty_cons,if_neg Bool.false_ne_true,ih]
        simp only [List.length_cons,List.length_nil]
        omega
      · rw [if_neg dot,ih]
        simp only [List.length_append,List.length_cons,List.length_nil]
        omega

theorem dnsQuery_length_host (id : Half) (some : host ≠ []) :
    (dnsQuery id host).length = host.length + 17 + if EndsInDot host then 0 else 1 := by
  rw [dnsQuery_length_eq,nameBytes,if_neg (by simpa using some),qname_length]
  simp only [List.length_nil]
  omega

theorem dnsQuery_fits_iff (id : Half) (host : List Byte) : (dnsQuery id host).length ≤ 256 ↔
    host.length ≤ 238 ∨ host.length = 239 ∧ EndsInDot host := by
  by_cases none : host = []
  · have empty : (nameBytes []).length = 0 := rfl
    rw [none,dnsQuery_length_eq,empty]
    exact iff_of_true (by decide) (.inl (by decide))
  · rw [dnsQuery_length_host id none]
    split
    next dot =>
      simp only [dot,and_true]
      omega
    next other =>
      simp only [other,and_false,or_false]
      omega

/-- The query stays inside of its array unless the name is too long for it. -/
theorem query_inside_iff (query : Fin 256 → Byte) (id : Half) (host : List Byte) :
    (∃ r, encodeQuery query id host = .ok r) ↔
      host.length ≤ 238 ∨ host.length = 239 ∧ EndsInDot host := by
  rw [encodeQuery_ok_iff,dnsQuery_fits_iff]

/-- A line of the shell holds a name of 239 letters. -/
theorem long_name_overflows : ¬∀ (query : Fin 256 → Byte) (id : Half) (host : List Byte),
    1 ≤ host.length → host.length ≤ 247 → 0 ∉ host → ∃ r, encodeQuery query id host = .ok r := by
  intro always
  have letters : List.length (List.replicate 239 (0x61 : Byte)) = 239 := List.length_replicate
  have noNul : 0 ∉ List.replicate 239 (0x61 : Byte) := by
    intro member
    exact absurd (List.eq_of_mem_replicate member) (by decide)
  have fits := (encodeQuery_ok_iff _ _ _).mp (always (fun _ => 0) 0 (List.replicate 239 0x61)
    (by rw [letters]; decide) (by rw [letters]; decide) noNul)
  rw [dnsQuery_fits_iff,letters,EndsInDot,List.getLast?_replicate] at fits
  exact absurd fits (by decide)

/-! Round trips. -/

theorem firstLabel_append (dotless : 46 ∉ label) (src : List Byte) :
    firstLabel (label ++ 46 :: src) = label ∧ restName (label ++ 46 :: src) = src := by
  induction label with
  | nil => exact ⟨firstLabel_dot,restName_dot⟩
  | cons c label ih =>
    have char : c ≠ 46 := (List.ne_of_not_mem_cons dotless).symm
    obtain ⟨first,rest⟩ := ih (List.not_mem_of_not_mem_cons dotless)
    rw [List.cons_append,firstLabel_char char,restName_char char,first,rest]
    exact ⟨rfl,rfl⟩

theorem firstLabel_last (dotless : 46 ∉ label) : firstLabel label = label ∧ restName label = [] := by
  induction label with
  | nil => exact ⟨rfl,rfl⟩
  | cons c label ih =>
    have char : c ≠ 46 := (List.ne_of_not_mem_cons dotless).symm
    obtain ⟨first,rest⟩ := ih (List.not_mem_of_not_mem_cons dotless)
    rw [firstLabel_char char,restName_char char,first,rest]
    exact ⟨rfl,rfl⟩

theorem nameBytes_dot (dotless : 46 ∉ label) (src : List Byte) :
    nameBytes (label ++ 46 :: src) = labelBytes label ++ nameBytes src := by
  obtain ⟨first,rest⟩ := firstLabel_append dotless src
  rw [nameBytes_label (by simp),first,rest]

theorem nameBytes_last (l : Label) (dotless : 46 ∉ l.val) : nameBytes l.val = labelBytes l.val := by
  obtain ⟨first,rest⟩ := firstLabel_last dotless
  have some : l.val ≠ [] := List.ne_nil_of_length_pos l.property.1
  rw [nameBytes_label some,first,rest]
  exact List.append_nil _

/-- With or without a dot at the end, a name becomes its labels. -/
theorem nameBytes_hostname (labels : List Label) (trailing : Bool) (some : labels ≠ [])
    (dotless : ∀ l ∈ labels, 46 ∉ l.val) : nameBytes (hostname labels trailing) = labelsWire labels := by
  induction labels with
  | nil => exact absurd rfl some
  | cons l labels ih =>
    have first := dotless l List.mem_cons_self
    cases labels with
    | nil =>
      cases trailing with
      | false =>
        have plain : hostname [l] false = l.val := List.append_nil _
        rw [plain,nameBytes_last l first]
        exact (List.append_nil _).symm
      | true =>
        have dot : hostname [l] true = l.val ++ 46 :: [] := rfl
        rw [dot,nameBytes_dot first]
        rfl
    | cons k labels =>
      have more : hostname (l :: k :: labels) trailing = l.val ++ 46 :: hostname (k :: labels) trailing := by
        simp [hostname,dotted]
      rw [more,nameBytes_dot first,ih (List.cons_ne_nil k labels) fun l member =>
        dotless l (List.mem_cons_of_mem _ member)]
      rfl

theorem decodeLabels_wire (labels : List Label) (rest : List Byte) (enough : labels.length < rounds) :
    decodeLabels rounds (labelsWire labels ++ 0 :: rest) = some (labels.map Subtype.val,rest) := by
  induction labels generalizing rounds with
  | nil =>
    cases rounds with
    | zero => exact absurd enough (Nat.not_lt_zero _)
    | succ rounds => exact if_pos rfl
  | cons l labels ih =>
    cases rounds with
    | zero => exact absurd enough (Nat.not_lt_zero _)
    | succ rounds =>
      have small := l.property.2
      have parts : labelsWire (l :: labels) ++ 0 :: rest =
          BitVec.ofNat 8 l.val.length :: (l.val ++ (labelsWire labels ++ 0 :: rest)) := by
        rw [labelsWire_cons,Label.wire,List.cons_append,List.cons_append,List.append_assoc]
      have whole : ¬(63 < l.val.length ∨ (l.val ++ (labelsWire labels ++ 0 :: rest)).length < l.val.length) := by
        rw [List.length_append]
        omega
      rw [parts,decodeLabels,if_neg (length_ne_zero l),length_byte,if_neg whole,List.drop_left,List.take_left,
        ih (Nat.lt_of_succ_lt_succ enough)]
      rfl

/-- A query is its header, the question's name, and its type and class. -/
theorem dnsQuery_hostname (id : Half) (labels : List Label) (trailing : Bool) (some : labels ≠ [])
    (dotless : ∀ l ∈ labels, 46 ∉ l.val) : dnsQuery id (hostname labels trailing) =
      queryHeader id ++ (Name.wire ⟨labels,.zero⟩ ++ [0,1,0,1]) := by
  rw [dnsQuery_parts,nameBytes_hostname labels trailing some dotless,Name.wire]
  simp [Ending.wire]

/-- What is written is the labels of the host name, the type and the class, and the loop of
`handle_udp` goes over the question to its end. -/
theorem query_round_trips (query : Fin 256 → Byte) (id : Half) (labels : List Label) (trailing : Bool)
    (some : labels ≠ []) (dotless : ∀ l ∈ labels, 46 ∉ l.val)
    (short : (hostname labels trailing).length ≤ 238) :
    encodeQuery query id (hostname labels trailing) =
      .ok (overlay query 0 (dnsQuery id (hostname labels trailing)),
        BitVec.ofNat 16 (dnsQuery id (hostname labels trailing)).length) ∧
    (dnsQuery id (hostname labels trailing)).length ≤ 256 ∧
    decodeName ((dnsQuery id (hostname labels trailing)).drop 12) =
      .some (labels.map Subtype.val,[0,1,0,1]) ∧
    ∀ data message stop, At data message (dnsQuery id (hostname labels trailing)) →
      message + (dnsQuery id (hostname labels trailing)).length ≤ stop →
        skipQuestion data stop (stop - (message + 12)) (message + 12) =
          message + (dnsQuery id (hostname labels trailing)).length := by
  have fits := (dnsQuery_fits_iff id (hostname labels trailing)).mpr (.inl short)
  refine ⟨encodeQuery_inside query fits,fits,?_,?_⟩
  · have count := labels_count labels
    have zero : Name.wire ⟨labels,.zero⟩ ++ [0,1,0,1] = labelsWire labels ++ 0 :: [0,1,0,1] := by
      simp [Name.wire,Ending.wire]
    have header : (queryHeader id).length = 12 := rfl
    rw [dnsQuery_hostname id labels trailing some dotless,List.drop_left' header,zero,decodeName]
    apply decodeLabels_wire
    rw [List.length_append]
    exact Nat.lt_of_le_of_lt count (Nat.lt_add_of_pos_right (Nat.zero_lt_succ _))
  · intro data message stop stands inside
    rw [dnsQuery_hostname id labels trailing some dotless] at stands inside ⊢
    have header : (queryHeader id).length = 12 := rfl
    have fields : ([0,1,0,1] : List Byte).length = 4 := rfl
    rw [at_append,at_append,header] at stands
    rw [List.length_append,List.length_append,header,fields] at inside ⊢
    rw [skipQuestion_zeroEnded stands.2.1 (by omega) rfl]
    omega

/-- A name of two labels and a dot at the end. -/
theorem query_round_trips_dotted :
    decodeName ((dnsQuery 7 (hostname [⟨[0x61,0x62],by decide⟩,⟨[0x63],by decide⟩] true)).drop 12) =
      some ([[0x61,0x62],[0x63]],[0,1,0,1]) :=
  (query_round_trips (fun _ => 0) 7 [⟨[0x61,0x62],by decide⟩,⟨[0x63],by decide⟩] true
    (List.cons_ne_nil _ _) (by decide) (by decide)).2.2.1

end

end NimrodOS.Net.Dns
