import MacXterm.Core.VaultRoundTrip
import MacXterm.Core.AtomicSave
import MacXterm.Core.IniRoundTrip
import MacXterm.Ui.SecretRows
import MacXterm.Ui.Association
import MacXterm.Connect.Framing
import MacXterm.Tunnel.Integrity
import MacXterm.Tools.Ftp.Escape
import MacXterm.Tools.Nfs.Containment
import MacXterm.Tools.Nfs.Malformed
import MacXterm.Tools.HttpServer
import MacXterm.Tools.SftpServer
import MacXterm.Tools.TftpServer
import MacXterm.Sftp.DownloadInside
import MacXterm.Sftp.Truthful
import MacXterm.Sftp.Complete
import MacXterm.Tools.Nfs.Identity
import MacXterm.Ui.VaultSave
import MacXterm.Ui.BracketedPaste
import MacXterm.Ui.UniqueNames
import MacXterm.Ui.EditRoundTrip
import MacXterm.Term.Reflow
import MacXterm.Connect.Negotiation
import MacXterm.Connect.Failure
import MacXterm.Connect.ServerFormat
import MacXterm.Tunnel.LocalForwarder
import MacXterm.Connect.PrefixExact
import MacXterm.Connect.XdmcpHandshake
import MacXterm.Connect.ZrleBroken
import MacXterm.Core.SshConfigAgreement
import MacXterm.Tools.CronSemantics
import MacXterm.Tools.CronServer
import MacXterm.Tools.Nfs.Status
import MacXterm.Tools.TextDiff
import MacXterm.Ui.ImportedGateway
import MacXterm.Tools.XdrReading
import MacXterm.Tools.XdrCursor
import MacXterm.Tools.XdrRoundTrip
import MacXterm.Tools.Nfs.Page
import MacXterm.Tools.Nfs.ReplySize
import MacXterm.Tools.Nfs.Header
import MacXterm.Tools.Nfs.FileBytes
import MacXterm.Tools.Nfs.CreateMode
import MacXterm.Tools.Nfs.Paging
import MacXterm.Tools.PathGuards
import MacXterm.Connect.VersionText
import MacXterm.Connect.ServerInitExact
import MacXterm.Connect.RectAccess
import MacXterm.Tools.SftpTruthful
import MacXterm.Sftp.ReplyFraming
import MacXterm.Sftp.CommandRoundTrip
import MacXterm.Sftp.ListingRoundTrip
import MacXterm.Tools.TftpRuns
import MacXterm.Sftp.ParentLaws
import MacXterm.Core.VaultTamper
import MacXterm.Core.FormKeeps
import MacXterm.Ui.GatewayRoundTrip
import MacXterm.Ui.GatewayCredentials
import MacXterm.Core.PuttyAgreement
import MacXterm.Term.WideGlyphs
import MacXterm.Term.History
import MacXterm.Term.PopLine
import MacXterm.Term.PrivateModes
import MacXterm.Term.OscScan
import MacXterm.Ui.MouseReports
import MacXterm.Ui.Selection
import MacXterm.Ui.SelectionKept
import MacXterm.Connect.TelnetItems
import MacXterm.Tunnel.SocksGrammar
import MacXterm.Ui.InputDelivery
import MacXterm.Tunnel.ForwarderRuns
import MacXterm.Connect.XdmcpParsers
import MacXterm.Core.CygPath
import MacXterm.Core.CliOptions
import MacXterm.Tunnel.TunnelForm
import MacXterm.Platform.Pty
import MacXterm.Tools.PacketDecode
import MacXterm.Tools.Subnet
import MacXterm.Core.FolderGroups
import MacXterm.Core.Macro
import MacXterm.Term.SyntaxHighlighter
import MacXterm.Sftp.ListingOrder
import MacXterm.Ui.ScrollView
import MacXterm.Ui.InputRouting
import MacXterm.Sftp.FtpSession
import MacXterm.Ui.SftpPanel
import MacXterm.Connect.ClientMessages
import MacXterm.Core.WinScpImporter
import MacXterm.Tools.FolderDiff
import MacXterm.Connect.SimpleTcpConnection
import MacXterm.Ui.SessionTabs
import MacXterm.Ui.Shortcuts
