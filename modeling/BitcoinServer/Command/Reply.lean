import BitcoinServer.Library.CText

/-!
Contract: the bytes of a reply.

`send_message` writes its bytes to the socket as they are. `send_formatted` fills a
frame of 45 bytes with blanks, puts four characters, a tab and up to 40 characters of
the message into it, and CR LF at its end.
-/

namespace BitcoinServer.Command

open CText

/-- `"ERRO"`. -/
def errorHead : List UInt8 := ascii ['E', 'R', 'R', 'O']

/-- The bytes that `send_formatted` hands to `send_message`. -/
def sendFormatted (info msg : List UInt8) : List UInt8 :=
  let text := msg.take 40
  let toSend := info.take 4 ++ [9] ++ text ++ List.replicate (40 - text.length) 32
  (toSend.set 43 13).set 44 10

/-- `"OKAY\r\n"`, the reply to a valid solution. -/
def okayReply : List UInt8 := ascii ['O', 'K', 'A', 'Y', '\r', '\n']

end BitcoinServer.Command
