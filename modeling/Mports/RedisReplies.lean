import Mports.ChunkedStreams
import Mports.PerlText
import Mathlib.Algebra.Group.Int.Defs
import Mathlib.Data.List.Basic

set_option autoImplicit false

namespace Mports.RedisReplies
open ChunkedStreams PerlText

/-- A byte string, the characters below 256; nothing here depends on the bound. -/
abbrev Bytes := List Char

abbrev Sock := Input Char

def crlf : Bytes := ['\r', '\n']

inductive Value where
  | text (data : Bytes)
  | number (n : ℤ)
  | undefined
  deriving DecidableEq, Repr

/-- `int`, of the digits that a text begins with. -/
def int (data : Bytes) : ℤ :=
  match data with
  | '-' :: data => -(Nat.ofDigitChars 10 (data.takeWhile Char.isDigit) 0 : ℕ)
  | '+' :: data => (Nat.ofDigitChars 10 (data.takeWhile Char.isDigit) 0 : ℕ)
  | data => (Nat.ofDigitChars 10 (data.takeWhile Char.isDigit) 0 : ℕ)

/-- `s/\r?\n\z//`. -/
def chomped (line : Bytes) : Bytes :=
  match line.reverse with
  | '\n' :: '\r' :: rest => rest.reverse
  | '\n' :: rest => rest.reverse
  | _ => line

def readBulk (remaining : ℕ) (buf : Bytes) (sock : Sock) : Except Bytes Bytes × Sock :=
  if _ : remaining = 0 then (.ok buf, sock)
  else
    let chunk := (sock.read remaining).1
    let sock := (sock.read remaining).2
    if chunk = [] then (.error "Redis closed the bulk response\n".toList, sock)
    else readBulk (remaining - chunk.length) (buf ++ chunk) sock
termination_by remaining
decreasing_by exact Nat.sub_lt (Nat.pos_of_ne_zero ‹¬remaining = 0›) (List.length_pos_iff.2 ‹¬chunk = []›)

def redisReadResponse (sock : Sock) : Except Bytes Value × Sock :=
  match sock.readLine '\n' with
  | (none, sock) => (.error "Redis closed the connection\n".toList, sock)
  | (some line, sock) =>
    let line := chomped line
    let data := line.drop 1
    match line.head? with
    | some '+' => (.ok (.text data), sock)
    | some '-' => (.error ("Redis error: ".toList ++ data ++ ['\n']), sock)
    | some ':' => (.ok (.number (int data)), sock)
    | some '$' =>
      if int data < 0 then (.ok .undefined, sock)
      else
        match readBulk ((int data).toNat + 2) [] sock with
        | (.ok buf, sock) => (.ok (.text (buf.take (buf.length - 2))), sock)
        | (.error e, sock) => (.error e, sock)
    | _ => (.error ("Unsupported Redis response: ".toList ++ line ++ ['\n']), sock)

def responses : ℕ → Sock → List (Except Bytes Value × Bytes)
  | 0, _ => []
  | n + 1, sock => ((redisReadResponse sock).1, (redisReadResponse sock).2.data) :: responses n (redisReadResponse sock).2

def redisRequest (args : List (Option Bytes)) : Bytes :=
  args.foldl (fun request arg =>
      let arg := arg.getD []
      request ++ '$' :: (toString arg.length).toList ++ crlf ++ arg ++ crlf)
    ('*' :: (toString args.length).toList ++ crlf)

/-- A simple string or an error has no line ends. -/
abbrev Line := { text : Bytes // '\r' ∉ text ∧ '\n' ∉ text }

abbrev Int64 := { n : ℤ // -2 ^ 63 ≤ n ∧ n < 2 ^ 63 }

inductive Reply where
  | simple (text : Line)
  | error (text : Line)
  | integer (n : Int64)
  | bulk (data : Bytes)
  | null

def Reply.encode : Reply → Bytes
  | .simple text => '+' :: text.1 ++ crlf
  | .error text => '-' :: text.1 ++ crlf
  | .integer n => ':' :: (toString n.1).toList ++ crlf
  | .bulk data => '$' :: (toString data.length).toList ++ crlf ++ data ++ crlf
  | .null => "$-1".toList ++ crlf

def Reply.value : Reply → Except Bytes Value
  | .simple text => .ok (.text text.1)
  | .error text => .error ("Redis error: ".toList ++ text.1 ++ ['\n'])
  | .integer n => .ok (.number n.1)
  | .bulk data => .ok (.text data)
  | .null => .ok .undefined

def transcript : List Reply → Bytes → List (Except Bytes Value × Bytes)
  | [], _ => []
  | reply :: replies, rest => (reply.value, replies.flatMap Reply.encode ++ rest) :: transcript replies rest

def encodeArray (args : List Bytes) : Bytes :=
  '*' :: (toString args.length).toList ++ crlf ++ args.flatMap fun arg => (Reply.bulk arg).encode

def protocolLine : Bytes → Option (Bytes × Bytes)
  | '\r' :: '\n' :: rest => some ([], rest)
  | c :: rest => (protocolLine rest).map fun out => (c :: out.1, out.2)
  | [] => none

def protocolLength (kind : Char) (bytes : Bytes) : Option (ℕ × Bytes) :=
  match protocolLine bytes with
  | some (c :: digits, rest) =>
    if c = kind ∧ digits ≠ [] ∧ digits.all Char.isDigit then some (Nat.ofDigitChars 10 digits 0, rest) else none
  | _ => none

def protocolStrings : ℕ → Bytes → Option (List Bytes × Bytes)
  | 0, bytes => some ([], bytes)
  | n + 1, bytes =>
    match protocolLength '$' bytes with
    | none => none
    | some (length, bytes) =>
      if (bytes.drop length).take 2 = crlf then
        (protocolStrings n (bytes.drop (length + 2))).map fun out => (bytes.take length :: out.1, out.2)
      else none

def readRequest (bytes : Bytes) : Option (List Bytes × Bytes) :=
  match protocolLength '*' bytes with
  | some (count, bytes) => protocolStrings count bytes
  | none => none

section Numbers

theorem int_nat (n : ℕ) : int (toString n).toList = n := by
  have htake : ((toString n).toList).takeWhile Char.isDigit = (toString n).toList :=
    List.takeWhile_eq_self_iff.2 (toString_isDigit n)
  unfold int
  split
  · rename_i data hdata
    have hdigit := toString_isDigit n '-' (by rw [hdata]; exact List.mem_cons_self)
    exact absurd hdigit (by decide)
  · rename_i data hdata
    have hdigit := toString_isDigit n '+' (by rw [hdata]; exact List.mem_cons_self)
    exact absurd hdigit (by decide)
  · rw [htake, toString_value]

theorem toString_negSucc (n : ℕ) : (toString (Int.negSucc n)).toList = '-' :: (toString (n + 1)).toList := by
  rw [toString_toList]
  simp [toString, Int.repr, Nat.repr]

theorem int_toString (n : ℤ) : int (toString n).toList = n := by
  cases n with
  | ofNat n => exact int_nat n
  | negSucc n =>
    have htake : ((toString (n + 1)).toList).takeWhile Char.isDigit = (toString (n + 1)).toList :=
      List.takeWhile_eq_self_iff.2 (toString_isDigit (n + 1))
    rw [toString_negSucc, int, htake, toString_value]
    rfl

end Numbers

section Replies

theorem chomped_crlf (line : Bytes) : chomped (line ++ crlf) = line := by
  have hreverse : (line ++ crlf).reverse = '\n' :: '\r' :: line.reverse := by simp [crlf]
  rw [chomped, hreverse]
  exact List.reverse_reverse line

theorem readLine_crlf {line rest : Bytes} (h : '\n' ∉ line) (sock : Sock) (hdata : sock.data = line ++ crlf ++ rest) :
    (sock.readLine '\n').1 = some (line ++ crlf) ∧ (sock.readLine '\n').2.data = rest := by
  have hline : '\n' ∉ line ++ ['\r'] := by simp [h]
  have hcut : sock.data = (line ++ ['\r']) ++ '\n' :: rest := by
    rw [hdata]
    simp [crlf]
  have hread := Input.readLine_eq hline sock hcut
  exact ⟨hread.1.trans (by simp [crlf]), hread.2⟩

theorem readBulk_eq (remaining : ℕ) (buf data rest : Bytes) (sock : Sock) (hlength : data.length = remaining)
    (hdata : sock.data = data ++ rest) :
    (readBulk remaining buf sock).1 = .ok (buf ++ data) ∧ (readBulk remaining buf sock).2.data = rest := by
  induction remaining using Nat.strong_induction_on generalizing buf data sock with
  | _ remaining ih =>
    rw [readBulk]
    by_cases hdone : remaining = 0
    · rw [dif_pos hdone]
      have hnil : data = [] := List.eq_nil_of_length_eq_zero (hlength.trans hdone)
      rw [hnil] at hdata ⊢
      exact ⟨by rw [List.append_nil], hdata⟩
    · rw [dif_neg hdone]
      dsimp only
      have hsome : sock.data ≠ [] := by
        rw [hdata]
        exact List.append_ne_nil_of_left_ne_nil (List.ne_nil_of_length_pos (by omega)) rest
      have hchunk := Input.read_nonempty hdone hsome
      have hread := (sock.read_data remaining).trans hdata
      obtain ⟨more, hmore⟩ := List.prefix_of_prefix_length_le ⟨_, hread⟩ (List.prefix_append data rest)
        ((sock.read_length remaining).trans hlength.ge)
      rw [← hmore, List.append_assoc] at hread
      have hleft : more.length = remaining - (sock.read remaining).1.length := by
        have hparts := congrArg List.length hmore
        rw [List.length_append, hlength] at hparts
        omega
      have hpos := List.length_pos_iff.2 hchunk
      rw [if_neg hchunk, ← hmore, ← List.append_assoc]
      exact ih _ (by omega) (buf ++ (sock.read remaining).1) more (sock.read remaining).2 hleft
        (List.append_cancel_left hread)

theorem response_line (line rest : Bytes) (h : '\n' ∉ line) (sock : Sock) (hdata : sock.data = line ++ crlf ++ rest) :
    ∃ sock' : Sock, sock.readLine '\n' = (some (line ++ crlf), sock') ∧ sock'.data = rest :=
  ⟨_, Prod.ext (readLine_crlf h sock hdata).1 rfl, (readLine_crlf h sock hdata).2⟩

theorem newline_not_digits (n : ℕ) : '\n' ∉ (toString n).toList := by
  intro hmem
  exact absurd (toString_isDigit n _ hmem) (by decide)

theorem newline_not_integer (n : ℤ) : '\n' ∉ (toString n).toList := by
  cases n with
  | ofNat n => exact newline_not_digits n
  | negSucc n =>
    rw [toString_negSucc]
    intro hmem
    rcases List.mem_cons.1 hmem with heq | hmem
    · exact absurd heq (by decide)
    · exact newline_not_digits (n + 1) hmem

theorem response_eq (reply : Reply) (rest : Bytes) (sock : Sock) (hdata : sock.data = reply.encode ++ rest) :
    (redisReadResponse sock).1 = reply.value ∧ (redisReadResponse sock).2.data = rest := by
  cases reply with
  | simple text =>
    obtain ⟨sock', hline, hrest⟩ := response_line ('+' :: text.1) rest (by simp [text.2.2]) sock hdata
    rw [redisReadResponse, hline]
    dsimp only
    rw [chomped_crlf]
    exact ⟨rfl, hrest⟩
  | error text =>
    obtain ⟨sock', hline, hrest⟩ := response_line ('-' :: text.1) rest (by simp [text.2.2]) sock hdata
    rw [redisReadResponse, hline]
    dsimp only
    rw [chomped_crlf]
    exact ⟨rfl, hrest⟩
  | integer n =>
    obtain ⟨sock', hline, hrest⟩ :=
      response_line (':' :: (toString n.1).toList) rest (List.not_mem_cons_of_ne_of_not_mem (by decide) (newline_not_integer n.1)) sock hdata
    rw [redisReadResponse, hline]
    dsimp only
    rw [chomped_crlf]
    exact ⟨congrArg (fun n => Except.ok (Value.number n)) (int_toString n.1), hrest⟩
  | bulk data =>
    obtain ⟨sock', hline, hrest⟩ :=
      response_line ('$' :: (toString data.length).toList) (data ++ crlf ++ rest)
        (List.not_mem_cons_of_ne_of_not_mem (by decide) (newline_not_digits _)) sock (by rw [hdata]; simp [Reply.encode])
    have hbulk := readBulk_eq (data.length + 2) [] (data ++ crlf) rest sock' (by simp [crlf]) hrest
    rw [redisReadResponse, hline]
    dsimp only
    rw [chomped_crlf]
    simp only [List.head?_cons, List.drop_one, List.tail_cons, int_nat]
    rw [if_neg (by omega), Int.toNat_natCast]
    cases hread : readBulk (data.length + 2) [] sock' with
    | mk out sock'' =>
      rw [hread] at hbulk
      obtain ⟨rfl, hrest'⟩ := hbulk
      have hdrop : ([] ++ (data ++ crlf)).take (([] ++ (data ++ crlf)).length - 2) = data := by simp [crlf]
      dsimp only
      rw [hdrop]
      exact ⟨rfl, hrest'⟩
  | null =>
    obtain ⟨sock', hline, hrest⟩ := response_line "$-1".toList rest (by decide) sock hdata
    rw [redisReadResponse, hline]
    dsimp only
    rw [chomped_crlf]
    exact ⟨rfl, hrest⟩

theorem responses_eq (replies : List Reply) (rest : Bytes) (sock : Sock)
    (hdata : sock.data = replies.flatMap Reply.encode ++ rest) :
    responses replies.length sock = transcript replies rest := by
  induction replies generalizing sock with
  | nil => rfl
  | cons reply replies ih =>
    rw [List.flatMap_cons, List.append_assoc] at hdata
    obtain ⟨hvalue, hrest⟩ := response_eq reply _ sock hdata
    rw [List.length_cons, responses, transcript, hvalue, hrest, ih _ hrest]

end Replies

section Requests

theorem redisRequest_eq (args : List (Option Bytes)) : redisRequest args = encodeArray (args.map (·.getD [])) := by
  have hfold : ∀ (args : List (Option Bytes)) (request : Bytes),
      args.foldl (fun request arg => request ++ '$' :: (toString (arg.getD []).length).toList ++ crlf ++ arg.getD [] ++ crlf)
          request = request ++ (args.map (·.getD [])).flatMap fun arg => (Reply.bulk arg).encode := by
    intro args
    induction args with
    | nil => exact fun request => (List.append_nil request).symm
    | cons arg args ih =>
      intro request
      rw [List.foldl_cons, ih, List.map_cons, List.flatMap_cons]
      simp [Reply.encode]
  rw [encodeArray, List.length_map]
  exact hfold args _

theorem protocolLine_eq {line : Bytes} (h : '\r' ∉ line) (rest : Bytes) :
    protocolLine (line ++ crlf ++ rest) = some (line, rest) := by
  induction line with
  | nil => rfl
  | cons c line ih =>
    have hc : c ≠ '\r' := fun heq => h (heq ▸ List.mem_cons_self)
    have hline := ih fun hmem => h (List.mem_cons_of_mem _ hmem)
    rw [List.cons_append, List.cons_append, protocolLine.eq_2 _ _ (fun _ heq => absurd heq hc), hline]
    rfl

theorem protocolLength_eq {kind : Char} (hkind : kind ≠ '\r') (n : ℕ) (rest : Bytes) :
    protocolLength kind (kind :: (toString n).toList ++ crlf ++ rest) = some (n, rest) := by
  have hdigits := toString_isDigit n
  have hline : '\r' ∉ kind :: (toString n).toList := by
    refine List.not_mem_cons_of_ne_of_not_mem hkind.symm fun hmem => ?_
    exact absurd (hdigits _ hmem) (by decide)
  rw [protocolLength, protocolLine_eq hline]
  dsimp only
  rw [if_pos ⟨rfl, toString_ne_nil n, List.all_eq_true.2 hdigits⟩, toString_value]

theorem protocolStrings_eq (args : List Bytes) (rest : Bytes) :
    protocolStrings args.length ((args.flatMap fun arg => (Reply.bulk arg).encode) ++ rest) = some (args, rest) := by
  induction args with
  | nil => rfl
  | cons arg args ih =>
    have hsplit : (List.flatMap (fun arg => (Reply.bulk arg).encode) (arg :: args)) ++ rest =
        '$' :: (toString arg.length).toList ++ crlf ++
          (arg ++ (crlf ++ ((args.flatMap fun arg => (Reply.bulk arg).encode) ++ rest))) := by
      simp [Reply.encode]
    have hdrop : (arg ++ (crlf ++ ((args.flatMap fun arg => (Reply.bulk arg).encode) ++ rest))).drop (arg.length + 2) =
        (args.flatMap fun arg => (Reply.bulk arg).encode) ++ rest := by
      rw [← List.drop_drop, List.drop_left]
      rfl
    have hend : ∀ more : Bytes, (crlf ++ more).take 2 = crlf := fun _ => rfl
    rw [hsplit, List.length_cons, protocolStrings, protocolLength_eq (by decide)]
    dsimp only
    rw [List.drop_left, if_pos (hend _), hdrop, ih, List.take_left]
    rfl

theorem readRequest_eq (args : List (Option Bytes)) (rest : Bytes) :
    readRequest (redisRequest args ++ rest) = some (args.map (·.getD []), rest) := by
  rw [redisRequest_eq, encodeArray, List.append_assoc, readRequest, protocolLength_eq (by decide)]
  exact protocolStrings_eq _ rest

end Requests

/-- However the socket splits the replies, and whatever comes after them. -/
theorem framing_exact :
    (∀ (replies : List Reply) (rest : Bytes) (sock : Sock), sock.data = replies.flatMap Reply.encode ++ rest →
        responses replies.length sock = transcript replies rest) ∧
      ∀ args : List (Option Bytes), redisRequest args = encodeArray (args.map (·.getD [])) ∧
        ∀ rest, readRequest (redisRequest args ++ rest) = some (args.map (·.getD []), rest) :=
  ⟨responses_eq, fun args => ⟨redisRequest_eq args, readRequest_eq args⟩⟩

/-- A bulk string with a line end in it, split inside of its length and of its end. -/
def splitBulk : Sock where
  buffer := []
  chunks := [⟨"$".toList, by decide⟩, ⟨"2\r\n\r\n\r".toList, by decide⟩, ⟨"\n:7\r\n".toList, by decide⟩]
  patience := 0

theorem splitBulk_read :
    responses 2 splitBulk = transcript [.bulk "\r\n".toList, .integer ⟨7, by decide⟩] [] :=
  framing_exact.1 [.bulk "\r\n".toList, .integer ⟨7, by decide⟩] [] splitBulk (by decide)

end Mports.RedisReplies
