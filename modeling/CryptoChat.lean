import CryptoChat.Lib.Gf2
import CryptoChat.Lib.Bytes
import CryptoChat.Lib.Feistel
import CryptoChat.Lib.BitSelect
import CryptoChat.Lib.ListAt
import CryptoChat.Lib.Machine
import CryptoChat.Lib.ExactRead
import CryptoChat.Lib.Prog
import CryptoChat.Lib.Ctype
import CryptoChat.Lib.Stoul
import CryptoChat.Lib.BlockLoop
import CryptoChat.Lib.BinaryMethod
import CryptoChat.Lib.CheckedInt
import CryptoChat.Lib.CountedMap
import CryptoChat.Lib.Feed
import CryptoChat.Lib.Framing
import CryptoChat.Crypto.Aes
import CryptoChat.Crypto.Fips197
import CryptoChat.Crypto.AesInverse
import CryptoChat.Crypto.AesFips
import CryptoChat.Crypto.Des
import CryptoChat.Crypto.Fips46
import CryptoChat.Crypto.DesInverse
import CryptoChat.Crypto.DesFips
import CryptoChat.Crypto.DesSchedule
import CryptoChat.Crypto.DesWeakKeys
import CryptoChat.Crypto.Rsa
import CryptoChat.Crypto.Utils
import CryptoChat.Crypto.Window
import CryptoChat.Crypto.Playfair
import CryptoChat.Crypto.PlayfairText
import CryptoChat.Crypto.Classic
import CryptoChat.Crypto.Caesar
import CryptoChat.Crypto.Vigenere
import CryptoChat.Crypto.VigenereKey
import CryptoChat.Crypto.Affine
import CryptoChat.Crypto.Hill
import CryptoChat.Crypto.HillInverse
import CryptoChat.Crypto.HillText
import CryptoChat.Crypto.MainWindow
import CryptoChat.Crypto.WindowEvents
import CryptoChat.Net.Json
import CryptoChat.Net.Message
import CryptoChat.Net.ReadLoop
import CryptoChat.Net.FrameReader
import CryptoChat.Net.FrameStream
import CryptoChat.Net.SessionStream
import CryptoChat.Net.ThreeReaders
import CryptoChat.Net.SessionWrite
import CryptoChat.Net.Router
import CryptoChat.Net.Correlation
import CryptoChat.Net.SessionManager
import CryptoChat.Net.SessionTable
import CryptoChat.Net.ServerController
import CryptoChat.Net.Server
import CryptoChat.Net.ServerDashboard
import CryptoChat.Net.TlsContext
import CryptoChat.Net.ServerAppContext
import CryptoChat.Net.ServerRun
import CryptoChat.Net.Authenticity
import CryptoChat.Net.Secrecy
import CryptoChat.Net.SessionClose
import CryptoChat.Net.SessionLifecycle
import CryptoChat.Net.SessionLeft
import CryptoChat.Net.Handshake
import CryptoChat.Net.ClientIo
import CryptoChat.Net.ClientReconnect
import CryptoChat.Net.ClientPending
import CryptoChat.Net.ClientThread
import CryptoChat.Net.ClientAppContext
import CryptoChat.Net.ClientLifetime
import CryptoChat.Net.ChatClient
import CryptoChat.Net.Roster
import CryptoChat.Net.ChatMessages
import CryptoChat.Net.Chat
import CryptoChat.Net.ChatOrder
import CryptoChat.Net.ChatRoster
import CryptoChat.Net.ChatDrain
import CryptoChat.Net.FrameLink
import CryptoChat.Net.Pipe
import CryptoChat.Net.Wire
import CryptoChat.Net.WireRuns
import CryptoChat.Net.ChatLimits
import CryptoChat.Net.ChatApplication
import CryptoChat.Net.ChatCli
import CryptoChat.Net.ChatScreens
import CryptoChat.Net.UnreadBadge
